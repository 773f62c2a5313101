import Mathlib.Data.List.Infix
import WatScript.Engine.Report
import WatScript.Proofs.Immediates
import WatScript.Wat.Format
import WatScript.Wat.Read

/-!
# Instruction text reads back

The text of instructions is read line by line, and a line field by field. An instruction can be written
if its operation is listed, and if its immediate fits into one field (`Instr.IsWritable`). The line of
such an instruction reads as the instruction at every indentation (`Instr.IsWritable.readLines_cons`), so
the frames around it, and whether they are closed, do not matter (`readCode_formatCode`). Conversely all
that can be read is writable (`readCode_writable`), so formatting a text twice is formatting it once.
-/

namespace WatScript

open List Text

/-- The line of the instruction says what it is: the operation has a mnemonic, an immediate is given only
to an operation that takes one, and it neither ends a field nor starts a comment. -/
structure Instr.IsWritable (i : Instr) : Prop where
  listed : i.op ∈ Op.listed
  taken : i.imm ≠ [] → i.op.takesImmediate = true
  solid : ∀ g ∈ i.imm, isBlankGlyph g = false
  uncommented : ¬ [.char ';', .char ';'] <:+: i.imm

instance (i : Instr) : Decidable i.IsWritable :=
  decidable_of_iff (i.op ∈ Op.listed ∧ (i.imm ≠ [] → i.op.takesImmediate = true) ∧
      (∀ g ∈ i.imm, isBlankGlyph g = false) ∧ ¬ [.char ';', .char ';'] <:+: i.imm)
    ⟨fun ⟨h₁, h₂, h₃, h₄⟩ => ⟨h₁, h₂, h₃, h₄⟩, fun ⟨h₁, h₂, h₃, h₄⟩ => ⟨h₁, h₂, h₃, h₄⟩⟩

/-! ## Stretches of a text -/

namespace Text

section
variable {α : Type} {sep : α → Bool}

theorem splitFrom_line {line} (hline : ∀ x ∈ line, sep x = false) {x} (hx : sep x = true)
    (rest : List α) : ∀ held : List α,
    splitFrom sep held (line ++ x :: rest) = (held.reverse ++ line) :: splitFrom sep [] rest := by
  induction line with
  | nil => intro held; simp [splitFrom, hx]
  | cons y line ih =>
    intro held
    obtain ⟨hy, hline⟩ := forall_mem_cons.1 hline
    rw [cons_append, splitFrom, if_neg (by simp [hy]), ih hline]
    simp

theorem fieldsFrom_blanks {blanks} (h : ∀ x ∈ blanks, sep x = true) (rest : List α) :
    fieldsFrom sep [] (blanks ++ rest) = fieldsFrom sep [] rest := by
  induction blanks with
  | nil => rfl
  | cons x blanks ih =>
    obtain ⟨hx, h⟩ := forall_mem_cons.1 h
    rw [cons_append, fieldsFrom, if_pos hx, ih h]

theorem fieldsFrom_field {field} (h : ∀ x ∈ field, sep x = false) (rest : List α) : ∀ held : List α,
    fieldsFrom sep held (field ++ rest) = fieldsFrom sep (field.reverse ++ held) rest := by
  induction field with
  | nil => intro held; rfl
  | cons x field ih =>
    intro held
    obtain ⟨hx, h⟩ := forall_mem_cons.1 h
    have hstep : fieldsFrom sep held (x :: (field ++ rest)) =
        fieldsFrom sep (x :: held) (field ++ rest) := by
      cases held <;> simp [fieldsFrom, hx]
    rw [cons_append, hstep, ih h]
    simp

theorem mem_fieldsFrom {run field} : ∀ {held}, field ∈ fieldsFrom sep held run →
    (∀ x ∈ held, sep x = false) →
    (∀ x ∈ field, sep x = false) ∧ field <:+: held.reverse ++ run := by
  induction run with
  | nil =>
    intro held hmem hheld
    cases held with
    | nil => cases hmem
    | cons y held =>
      obtain rfl := mem_singleton.1 hmem
      exact ⟨fun x hx => hheld x (mem_reverse.1 hx), by simp⟩
  | cons x run ih =>
    intro held hmem hheld
    have hstep : (sep x = true ∧ (field = held.reverse ∨ field ∈ fieldsFrom sep [] run)) ∨
        (sep x = false ∧ field ∈ fieldsFrom sep (x :: held) run) := by
      cases held <;> cases hx : sep x <;> simp_all [fieldsFrom]
    rcases hstep with ⟨-, rfl | hmem⟩ | ⟨hx, hmem⟩
    · exact ⟨fun x hx => hheld x (mem_reverse.1 hx), (prefix_append ..).isInfix⟩
    · obtain ⟨hsolid, hinfix⟩ := ih hmem (by simp)
      refine ⟨hsolid, hinfix.trans ?_⟩
      exact ((suffix_cons ..).trans (suffix_append ..)).isInfix
    · obtain ⟨hsolid, hinfix⟩ := ih hmem (forall_mem_cons.2 ⟨hx, hheld⟩)
      exact ⟨hsolid, by simpa using hinfix⟩

end

theorem toString_ofString (s : String) : (ofString s).toString = s := by
  rw [Text.toString, toChars_ofString, String.ofList_toList]

end Text

/-! ## Comments -/

theorem cutComment_of_uncommented {text} (h : ¬ [.char ';', .char ';'] <:+: text) :
    cutComment text = text := by
  induction text with
  | nil => rfl
  | cons g text ih =>
    rw [cutComment, ih fun hi => h (hi.trans (suffix_cons ..).isInfix)]
    rintro rest rfl rfl
    exact h (prefix_append [.char ';', .char ';'] rest).isInfix

theorem cutComment_isPrefix (text : Text) : cutComment text <+: text := by
  fun_induction cutComment text with
  | case1 => exact nil_prefix
  | case2 g rest _ ih => exact cons_prefix_cons.2 ⟨rfl, ih⟩
  | case3 => exact nil_prefix

theorem not_infix_cutComment (text : Text) : ¬ [.char ';', .char ';'] <:+: cutComment text := by
  fun_induction cutComment text with
  | case1 => simp
  | case2 g rest hg ih =>
    intro hi
    rcases infix_cons_iff.1 hi with hfront | hi
    · -- the mark stands at the front, also of the line as it was
      obtain ⟨hsemi, hnext⟩ := cons_prefix_cons.1 hfront
      obtain ⟨tail, htail⟩ := hnext.trans (cutComment_isPrefix rest)
      exact hg tail hsemi.symm htail.symm
    · exact ih hi
  | case3 => simp

/-! ## Lines -/

theorem Op.name_of_listed : ∀ op ∈ Op.listed, Op.find? op.name = some op ∧ op.name.toList ≠ [] ∧
    ∀ c ∈ op.name.toList, isBlank c = false ∧ c ≠ ';' := by
  have hlisted : Op.listed.all (fun op => Op.find? op.name = some op ∧ op.name.toList ≠ [] ∧
      op.name.toList.all (fun c => isBlank c = false ∧ c ≠ ';')) = true := by
    decide
  simpa using hlisted

namespace Instr.IsWritable
variable {i : Instr} (h : i.IsWritable)
include h

theorem name_solid : ∀ g ∈ Text.ofString i.op.name, isBlankGlyph g = false := by
  intro g hg
  obtain ⟨c, hc, rfl⟩ := mem_map.1 hg
  exact ((Op.name_of_listed i.op h.listed).2.2 c hc).1

theorem name_uncommented : ∀ g ∈ Text.ofString i.op.name, g ≠ .char ';' := by
  intro g hg
  obtain ⟨c, hc, rfl⟩ := mem_map.1 hg
  simpa using ((Op.name_of_listed i.op h.listed).2.2 c hc).2

theorem name_ne_nil : Text.ofString i.op.name ≠ [] := by
  simpa [Text.ofString] using (Op.name_of_listed i.op h.listed).2.1

theorem readFields_plain (himm : i.imm = []) :
    readFields (.ofString i.op.name) [] = .ok i := by
  obtain ⟨op, imm⟩ := i
  obtain rfl : imm = [] := himm
  simp only [readFields, Text.toString_ofString, (Op.name_of_listed op h.listed).1]
  rfl

theorem readFields_imm (himm : i.imm ≠ []) :
    readFields (.ofString i.op.name) [i.imm] = .ok i := by
  simp only [readFields, Text.toString_ofString, (Op.name_of_listed i.op h.listed).1, h.taken himm,
    if_true]

theorem fields_text (indent : Nat) :
    fields (List.replicate indent (.char ' ') ++ i.text) =
      .ofString i.op.name :: (if i.imm = [] then [] else [i.imm]) := by
  have hblank : isBlankGlyph (.char ' ') = true := by decide
  rw [fields, Text.fieldsFrom_blanks fun g hg => (eq_of_mem_replicate hg) ▸ hblank, text]
  by_cases himm : i.imm = []
  · have hname := Text.fieldsFrom_field h.name_solid [] []
    rw [append_nil, append_nil, fieldsFrom_end h.name_ne_nil] at hname
    simpa [himm] using hname
  · rw [if_neg (by simpa using himm), Text.fieldsFrom_field h.name_solid, append_nil,
      fieldsFrom_cut h.name_ne_nil hblank, if_neg himm]
    have hlast := Text.fieldsFrom_field h.solid [] []
    rw [append_nil, append_nil, fieldsFrom_end himm] at hlast
    rw [hlast]

theorem cutComment_text (indent : Nat) :
    cutComment (List.replicate indent (.char ' ') ++ i.text) =
      List.replicate indent (.char ' ') ++ i.text := by
  rw [cutComment_append fun g hg => (eq_of_mem_replicate hg) ▸ by decide, text]
  split
  · have hname := cutComment_append h.name_uncommented []
    rw [append_nil] at hname
    rw [hname]
    simp [cutComment]
  · rw [cutComment_append h.name_uncommented]
    have himm := @cutComment_append [.char ' '] (by decide) i.imm
    rw [cutComment_of_uncommented h.uncommented] at himm
    rw [show (Glyph.char ' ' :: i.imm) = [.char ' '] ++ i.imm from rfl, himm]

theorem text_unbroken (indent : Nat) :
    ∀ g ∈ List.replicate indent (.char ' ') ++ i.text, (g == Glyph.char '\n') = false := by
  have hsolid : ∀ g, isBlankGlyph g = false → (g == Glyph.char '\n') = false := by
    rintro g hg
    refine beq_false_of_ne ?_
    rintro rfl
    exact absurd hg (by decide)
  intro g hg
  rcases mem_append.1 hg with hg | hg
  · rw [eq_of_mem_replicate hg]
    decide
  rw [text] at hg
  split at hg
  · exact hsolid g (h.name_solid g hg)
  · rcases mem_append.1 hg with hg | hg
    · exact hsolid g (h.name_solid g hg)
    · rcases mem_cons.1 hg with rfl | hg
      · decide
      · exact hsolid g (h.solid g hg)

theorem readLines_cons (indent n : Nat) (rest : List Text) :
    readLines n ((List.replicate indent (.char ' ') ++ i.text) :: rest) =
      (readLines (n + 1) rest).map (i :: ·) := by
  rw [readLines, h.cutComment_text, h.fields_text]
  have hfields : readFields (.ofString i.op.name) (if i.imm = [] then [] else [i.imm]) = .ok i := by
    split
    · exact h.readFields_plain ‹_›
    · exact h.readFields_imm ‹_›
  simp only [hfields]
  cases readLines (n + 1) rest <;> rfl

end Instr.IsWritable

/-! ## Texts -/

theorem formatLines_cons (level : Nat) (i : Instr) (code : List Instr) :
    ∃ indent level', formatLines level (i :: code) = instrLine indent i :: formatLines level' code := by
  rw [formatLines]
  split <;> exact ⟨_, _, rfl⟩

theorem readLines_formatLines {code} (h : ∀ i ∈ code, i.IsWritable) : ∀ n level : Nat,
    readLines n (Text.split (· == .char '\n') (formatLines level code).flatten) = .ok code := by
  induction code with
  | nil => intro n level; rfl
  | cons i code ih =>
    intro n level
    obtain ⟨hi, h⟩ := forall_mem_cons.1 h
    obtain ⟨indent, level', hlines⟩ := formatLines_cons level i code
    have hline := Text.splitFrom_line (hi.text_unbroken (2 * indent)) (x := .char '\n') (by decide)
      (formatLines level' code).flatten []
    rw [hlines, flatten_cons, instrLine, Text.split, append_assoc _ [_],
      singleton_append, hline, reverse_nil, nil_append, hi.readLines_cons]
    rw [← Text.split, ih h]
    rfl

/-- Whatever the frames, the text of writable instructions reads as these instructions. -/
theorem readCode_formatCode {code} (h : ∀ i ∈ code, i.IsWritable) :
    readCode (formatCode code) = .ok code :=
  readLines_formatLines h 1 0

theorem readFields_writable {line mnemonic operands i}
    (hfields : fields (cutComment line) = mnemonic :: operands)
    (h : readFields mnemonic operands = .ok i) : i.IsWritable := by
  rw [readFields] at h
  split at h
  · cases h
  rename_i op hop
  have hlisted : op ∈ Op.listed := mem_of_find?_eq_some hop
  split at h
  · cases h
    exact ⟨hlisted, fun himm => absurd rfl himm, by simp [Instr.plain], by simp [Instr.plain]⟩
  · rename_i imm
    split at h
    · rename_i htakes
      cases h
      have hmem : imm ∈ fields (cutComment line) := by simp [hfields]
      obtain ⟨hsolid, hinfix⟩ := Text.mem_fieldsFrom hmem (by simp)
      exact ⟨hlisted, fun _ => htakes, hsolid,
        fun hi => not_infix_cutComment line (hi.trans hinfix)⟩
    · cases h
  · cases h

theorem readLines_writable {lines} : ∀ {n code},
    readLines n lines = .ok code → ∀ i ∈ code, i.IsWritable := by
  induction lines with
  | nil =>
    intro n code h
    cases h
    simp
  | cons line lines ih =>
    intro n code h
    rw [readLines] at h
    split at h
    · exact ih h
    rename_i mnemonic operands hfields
    split at h
    · cases h
    rename_i i hi
    cases hrest : readLines (n + 1) lines with
    | error f =>
      rw [hrest] at h
      cases h
    | ok rest =>
      rw [hrest] at h
      cases h
      exact forall_mem_cons.2 ⟨readFields_writable hfields hi, ih hrest⟩

/-- All that reads as instructions can be written. -/
theorem readCode_writable {text code} (h : readCode text = .ok code) : ∀ i ∈ code, i.IsWritable :=
  readLines_writable h

/-- Writable instructions are read back from their text, whatever their frames; everything that can be
read is writable; and so a text that has been formatted has the instructions that it had before, and
formatting it once more changes nothing. -/
theorem instruction_text_round_trips :
    (∀ code : List Instr, (∀ i ∈ code, i.IsWritable) → readCode (formatCode code) = .ok code) ∧
    (∀ (text : Text) (code : List Instr), readCode text = .ok code → ∀ i ∈ code, i.IsWritable) ∧
    ∀ text formatted : Text, Engine.reformat text = .ok formatted →
      readCode formatted = readCode text ∧ Engine.reformat formatted = .ok formatted := by
  refine ⟨fun code => readCode_formatCode, fun text code => readCode_writable, ?_⟩
  intro text formatted h
  rw [Engine.reformat] at h ⊢
  cases hread : readCode text with
  | error f =>
    rw [hread] at h
    cases h
  | ok code =>
    rw [hread] at h
    cases h
    rw [readCode_formatCode (readCode_writable hread)]
    exact ⟨rfl, rfl⟩

/-- An `end` and an `else` without frames, a frame that is not closed, a label that is half a comment
mark and one with a stray byte. -/
theorem instruction_text_round_trips_unbalanced :
    let code : List Instr := [.plain .endFrame, .plain .elseArm, ⟨.block, .ofString "$;B"⟩,
      ⟨.br, .char '$' :: .stray 0xFF :: Text.ofString "é;"⟩, .const (-7), ⟨.loop, []⟩]
    readCode (formatCode code) = .ok code ∧
    readCode (.ofString "\telse ;; a;;b\n\n  br  0 ;; c") =
      .ok [.plain .elseArm, ⟨.br, .ofString "0"⟩] ∧
    (∀ i ∈ [Instr.plain .elseArm, ⟨.br, .ofString "0"⟩], i.IsWritable) ∧
    Engine.reformat (.ofString "else\nbr 0\n") = .ok (.ofString "else\nbr 0\n") := by
  obtain ⟨hback, hwritable, hformat⟩ := instruction_text_round_trips
  have hread : readCode (.ofString "\telse ;; a;;b\n\n  br  0 ;; c") =
      .ok [.plain .elseArm, ⟨.br, .ofString "0"⟩] := by decide +kernel
  have hformatted : Engine.reformat (.ofString "\telse ;; a;;b\n\n  br  0 ;; c") =
      .ok (.ofString "else\nbr 0\n") := by decide +kernel
  exact ⟨hback _ (by decide +kernel), hread, hwritable _ _ hread, (hformat _ _ hformatted).2⟩

end WatScript
