import Mathlib.Data.List.Nodup
import WatScript.Machine.Link
import WatScript.Proofs.Lowered

/-!
# Linked code

Linking matches each frame with its end. Code in which every frame is closed again is balanced
(`Balanced`), as all lowered code is (`StmtCode.balanced`), and linking a body links each balanced
stretch of it by itself (`Linked.append_inv`, `Linked.frame_inv`, `Linked.ifElse_inv`). What the spans
of a body say is what its links hold (`linked_of_link`), since each position has at most one span.
-/

namespace WatScript

open List
open Instr (plain)

/-! ## Spans of balanced code -/

/-- The operation neither opens nor closes a frame, nor divides one. -/
def Op.isFlat : Op → Bool
  | .block | .loop | .ifThen | .elseArm | .endFrame => false
  | _ => true

section
variable {pc : Nat} {frames : List OpenFrame} {i : Instr} {code rest : List Instr}

theorem spansFrom_flat (h : i.op.isFlat = true) :
    spansFrom pc frames (i :: code) = spansFrom (pc + 1) frames code := by
  obtain ⟨op, imm⟩ := i
  cases op with
  | block | loop | ifThen | elseArm | endFrame => cases h
  | _ => cases frames <;> rfl

theorem spansFrom_open (h : i.op.opensFrame = true) :
    spansFrom pc frames (i :: code) = spansFrom (pc + 1) (⟨pc, i.op, none⟩ :: frames) code := by
  obtain ⟨op, imm⟩ := i
  cases op with
  | block | loop | ifThen => cases frames <;> rfl
  | _ => cases h

/-- The spans of a frame that ends at `pc`. -/
def OpenFrame.spans (f : OpenFrame) (pc : Nat) : List (Nat × Span) :=
  (f.start, ⟨pc, f.alt⟩) :: (f.alt.map fun e => (e, ⟨pc, none⟩)).toList

/-- Where the frame has spans. -/
def OpenFrame.positions (f : OpenFrame) : List Nat := f.start :: f.alt.toList

theorem OpenFrame.map_spans (f : OpenFrame) (pc : Nat) : (f.spans pc).map (·.1) = f.positions := by
  obtain ⟨start, op, alt⟩ := f
  cases alt <;> rfl

theorem spansFrom_end {f} (h : i.op = .endFrame) : spansFrom pc (f :: frames) (i :: code) =
      (spansFrom (pc + 1) frames code).map (f.spans pc ++ ·) := by
  obtain ⟨op, imm⟩ := i
  obtain rfl : op = .endFrame := h
  rfl

theorem spansFrom_else {start} (h : i.op = .elseArm) :
    spansFrom pc (⟨start, .ifThen, none⟩ :: frames) (i :: code) =
      spansFrom (pc + 1) (⟨start, .ifThen, some pc⟩ :: frames) code := by
  obtain ⟨op, imm⟩ := i
  obtain rfl : op = .elseArm := h
  rfl

theorem spansFrom_cases {spans} (h : spansFrom pc frames (i :: code) = .ok spans) :
    (i.op.isFlat = true ∧ spansFrom (pc + 1) frames code = .ok spans) ∨ (i.op.opensFrame = true ∧
      spansFrom (pc + 1) (⟨pc, i.op, none⟩ :: frames) code = .ok spans) ∨
    (∃ start outer, i.op = .elseArm ∧ frames = ⟨start, .ifThen, none⟩ :: outer ∧
      spansFrom (pc + 1) (⟨start, .ifThen, some pc⟩ :: outer) code = .ok spans) ∨
    ∃ f outer later, i.op = .endFrame ∧ frames = f :: outer ∧
      spansFrom (pc + 1) outer code = .ok later ∧ spans = f.spans pc ++ later := by
  cases hflat : i.op.isFlat with
  | true => exact .inl ⟨rfl, spansFrom_flat hflat ▸ h⟩
  | false =>
    cases hopen : i.op.opensFrame with
    | true => exact .inr (.inl ⟨rfl, spansFrom_open hopen ▸ h⟩)
    | false =>
      obtain ⟨op, imm⟩ := i
      cases op with
      | elseArm =>
        refine .inr (.inr (.inl ?_))
        cases frames with
        | nil => cases h
        | cons f outer =>
          obtain ⟨start, op, alt⟩ := f
          cases op with
          | ifThen =>
            cases alt with
            | none => exact ⟨start, outer, rfl, rfl, h⟩
            | some e => cases h
          | _ => cases h
      | endFrame =>
        refine .inr (.inr (.inr ?_))
        cases frames with
        | nil => cases h
        | cons f outer =>
          rw [spansFrom_end rfl] at h
          obtain ⟨later, hlater, hspans⟩ := map_ok h
          exact ⟨f, outer, later, rfl, rfl, hlater, hspans.symm⟩
      | block | loop | ifThen => cases hopen
      | _ => cases hflat

theorem spansFrom_append : ∀ {code pc inner outer spans}, spansFrom pc inner code = .ok spans →
    spansFrom pc (inner ++ outer) (code ++ rest) =
      (spansFrom (pc + code.length) outer rest).map (spans ++ ·)
  | [], pc, inner, outer, spans, h => by
    cases inner with
    | cons f inner => cases h
    | nil =>
      cases h
      simp only [nil_append, length_nil, Nat.add_zero]
      cases spansFrom pc outer rest <;> rfl
  | i :: code, pc, inner, outer, spans, h => by
    rw [cons_append, length_cons, Nat.add_comm code.length, ← Nat.add_assoc]
    obtain ⟨hop, hc⟩ | ⟨hop, hc⟩ | ⟨start, inner, hop, rfl, hc⟩ |
      ⟨f, inner, later, hop, rfl, hc, rfl⟩ := spansFrom_cases h
    · rw [spansFrom_flat hop]
      exact spansFrom_append hc
    · rw [spansFrom_open hop]
      exact spansFrom_append hc
    · rw [cons_append, spansFrom_else hop]
      exact spansFrom_append hc
    · rw [cons_append, spansFrom_end hop, spansFrom_append hc]
      cases spansFrom (pc + 1 + code.length) outer rest with
      | error e => rfl
      | ok spans => exact congrArg Except.ok (append_assoc ..).symm

theorem spansFrom_frame {c c' spans e}
    (hi : i.op.opensFrame = true) (he : e.op = .endFrame) (hs : spansFrom (pc + 1) [] c = .ok spans) :
    spansFrom pc [] (i :: (c ++ e :: c')) =
      (spansFrom (pc + 1 + c.length + 1) [] c').map fun spans' =>
        spans ++ (pc, ⟨pc + 1 + c.length, none⟩) :: spans' := by
  rw [spansFrom_open hi, ← nil_append [_], spansFrom_append hs, spansFrom_end he]
  cases spansFrom (pc + 1 + c.length + 1) [] c' <;> rfl

theorem spansFrom_ifElse {c d c' spans dspans m e}
    (hi : i.op = .ifThen) (hm : m.op = .elseArm) (he : e.op = .endFrame)
    (hs : spansFrom (pc + 1) [] c = .ok spans)
    (hd : spansFrom (pc + 1 + c.length + 1) [] d = .ok dspans) :
    spansFrom pc [] (i :: (c ++ m :: (d ++ e :: c'))) =
      (spansFrom (pc + 1 + c.length + 1 + d.length + 1) [] c').map fun spans' => spans ++ (dspans ++
          (pc, ⟨pc + 1 + c.length + 1 + d.length, some (pc + 1 + c.length)⟩) ::
            (pc + 1 + c.length, ⟨pc + 1 + c.length + 1 + d.length, none⟩) :: spans') := by
  rw [spansFrom_open (hi ▸ rfl), hi, ← nil_append [_], spansFrom_append hs, spansFrom_else hm,
    ← nil_append [_], spansFrom_append hd, spansFrom_end he]
  cases spansFrom (pc + 1 + c.length + 1 + d.length + 1) [] c' <;> rfl

/-- Positions before `pc`, each once. -/
def Before (pc : Nat) (ps : List Nat) : Prop := ps.Nodup ∧ ∀ k ∈ ps, k < pc

theorem Before.step {ps} (h : Before pc ps) : Before (pc + 1) ps :=
  ⟨h.1, fun k hk => Nat.lt_succ_of_lt (h.2 k hk)⟩

theorem Before.push {ps} (h : Before pc ps) : Before (pc + 1) (pc :: ps) :=
  ⟨nodup_cons.2 ⟨fun hpc => Nat.lt_irrefl _ (h.2 pc hpc), h.1⟩,
    forall_mem_cons.2 ⟨Nat.lt_succ_self _, h.step.2⟩⟩

theorem Before.perm {ps qs} (h : Before pc ps) (hp : ps.Perm qs) : Before pc qs :=
  ⟨hp.nodup h.1, fun k hk => h.2 k (hp.mem_iff.2 hk)⟩

theorem spansFrom_keys : ∀ {code pc frames spans}, spansFrom pc frames code = .ok spans →
    Before pc (frames.flatMap OpenFrame.positions) →
    (spans.map (·.1)).Nodup ∧ ∀ k ∈ spans.map (·.1),
      k ∈ frames.flatMap OpenFrame.positions ∨ pc ≤ k ∧ k < pc + code.length
  | [], pc, frames, spans, h, _ => by
    cases frames with
    | cons f inner => cases h
    | nil =>
      cases h
      exact ⟨nodup_nil, fun k hk => by cases hk⟩
  | i :: code, pc, frames, spans, h, hb => by
    rw [length_cons]
    obtain ⟨_, hc⟩ | ⟨_, hc⟩ | ⟨start, outer, _, rfl, hc⟩ | ⟨f, outer, later, _, rfl, hc, rfl⟩ :=
      spansFrom_cases h
    · obtain ⟨hn, hk⟩ := spansFrom_keys hc hb.step
      exact ⟨hn, fun k h => (hk k h).imp id (by omega)⟩
    · obtain ⟨hn, hk⟩ := spansFrom_keys hc hb.push
      refine ⟨hn, fun k h => ?_⟩
      obtain hm | hge := hk k h
      · obtain rfl | hm := mem_cons.1 hm
        · exact .inr (by omega)
        · exact .inl hm
      · exact .inr (by omega)
    · -- the `else` is a further position of the frame
      obtain ⟨hn, hk⟩ := spansFrom_keys hc (hb.push.perm (List.Perm.swap ..))
      refine ⟨hn, fun k h => ?_⟩
      obtain hm | hge := hk k h
      · obtain rfl | hm := mem_cons.1 ((List.Perm.swap ..).mem_iff.1 hm)
        · exact .inr (by omega)
        · exact .inl hm
      · exact .inr (by omega)
    · -- the positions of the frame that ends are no longer open, so no later span has them
      obtain ⟨hnodup, hlt⟩ := hb
      rw [flatMap_cons] at hnodup hlt
      obtain ⟨hf, ho, hdisjoint⟩ := nodup_append.1 hnodup
      have hb : Before pc (outer.flatMap OpenFrame.positions) :=
        ⟨ho, fun k hk => hlt k (mem_append_right _ hk)⟩
      obtain ⟨hn, hk⟩ := spansFrom_keys hc hb.step
      rw [map_append, f.map_spans, flatMap_cons]
      refine ⟨nodup_append.2 ⟨hf, hn, fun x hx y hy => ?_⟩, fun k h => ?_⟩
      · obtain hm | hge := hk y hy
        · exact hdisjoint x hx y hm
        · have := hlt x (mem_append_left _ hx)
          omega
      · obtain hm | hm := mem_append.1 h
        · exact .inl (mem_append_left _ hm)
        · exact (hk k hm).imp (mem_append_right _) (by omega)

/-- The operation is matched with an end: it opens a frame or divides one. -/
def Op.isMatched (op : Op) : Bool := op.opensFrame || op == .elseArm

/-- The positions of instructions that need a span. -/
def matchedFrom : Nat → List Instr → List Nat
  | _, [] => []
  | pc, i :: code =>
    if i.op.isMatched then pc :: matchedFrom (pc + 1) code else matchedFrom (pc + 1) code

theorem mem_matchedFrom : ∀ {code pc k i}, code[k]? = some i →
    i.op.isMatched = true → pc + k ∈ matchedFrom pc code
  | j :: code, pc, 0, i, hi, hm => by
    obtain rfl : j = i := Option.some.inj hi
    rw [matchedFrom, if_pos hm]
    exact mem_cons_self
  | j :: code, pc, k + 1, i, hi, hm => by
    have hrest : pc + 1 + k ∈ matchedFrom (pc + 1) code := mem_matchedFrom hi hm
    rw [matchedFrom, Nat.add_comm k, ← Nat.add_assoc]
    split
    · exact mem_cons_of_mem _ hrest
    · exact hrest

theorem mem_spansFrom : ∀ {code pc frames spans}, spansFrom pc frames code = .ok spans →
    ∀ k ∈ frames.flatMap OpenFrame.positions ++ matchedFrom pc code, k ∈ spans.map (·.1)
  | [], pc, frames, spans, h, k, hk => by
    cases frames with
    | cons f inner => cases h
    | nil => cases hk
  | i :: code, pc, frames, spans, h, k, hk => by
    obtain ⟨hop, hc⟩ | ⟨hop, hc⟩ | ⟨start, outer, hop, rfl, hc⟩ | ⟨f, outer, later, hop, rfl, hc, rfl⟩ :=
      spansFrom_cases h
    · have hm : i.op.isMatched = false := by
        revert hop
        cases i.op <;> simp [Op.isFlat, Op.isMatched, Op.opensFrame]
      rw [matchedFrom, hm] at hk
      exact mem_spansFrom hc k hk
    · have hm : i.op.isMatched = true := by rw [Op.isMatched, hop, Bool.true_or]
      rw [matchedFrom, if_pos hm, mem_append, mem_cons] at hk
      refine mem_spansFrom hc k ?_
      rw [flatMap_cons, append_assoc, mem_append, mem_append]
      exact or_left_comm.1 (hk.imp_right (Or.imp_left mem_singleton.2))
    · have hm : i.op.isMatched = true := by rw [hop]; rfl
      rw [matchedFrom, if_pos hm, mem_append, mem_cons] at hk
      refine mem_spansFrom hc k ?_
      -- the `else` is a further position of the frame
      simp only [flatMap_cons, OpenFrame.positions, Option.toList, mem_append,
        mem_cons] at hk ⊢
      grind
    · have hm : i.op.isMatched = false := by rw [hop]; rfl
      rw [matchedFrom, hm, flatMap_cons, append_assoc] at hk
      rw [map_append, f.map_spans]
      exact mem_append.2 ((mem_append.1 hk).imp_right (mem_spansFrom hc k))

end

/-! ## Balanced code -/

/-- Every frame is closed, wherever the code stands. -/
def Balanced (code : List Instr) : Prop := ∀ pc, ∃ spans, spansFrom pc [] code = .ok spans

namespace Balanced
variable {i : Instr} {c c' : List Instr}

theorem nil : Balanced [] := fun _ => ⟨[], rfl⟩

theorem flat (h : i.op.isFlat = true) (hc : Balanced c) : Balanced (i :: c) := by
  intro pc
  rw [spansFrom_flat h]
  exact hc (pc + 1)

theorem one (h : i.op.isFlat = true) : Balanced [i] := flat h nil

theorem append (h : Balanced c) (h' : Balanced c') : Balanced (c ++ c') := by
  intro pc
  obtain ⟨spans, hs⟩ := h pc
  obtain ⟨spans', hs'⟩ := h' (pc + c.length)
  refine ⟨spans ++ spans', ?_⟩
  rw [← append_nil ([] : List OpenFrame), spansFrom_append hs, hs']
  rfl

theorem frame {e} (h : i.op.opensFrame = true) (he : e.op = .endFrame) (hc : Balanced c)
    (hc' : Balanced c') : Balanced (i :: (c ++ e :: c')) := by
  intro pc
  obtain ⟨spans, hs⟩ := hc (pc + 1)
  obtain ⟨spans', hs'⟩ := hc' (pc + 1 + c.length + 1)
  rw [spansFrom_frame h he hs, hs']
  exact ⟨_, rfl⟩

theorem ifElse {d m e} (hi : i.op = .ifThen) (hm : m.op = .elseArm)
    (he : e.op = .endFrame) (hc : Balanced c) (hd : Balanced d) (hc' : Balanced c') :
    Balanced (i :: (c ++ m :: (d ++ e :: c'))) := by
  intro pc
  obtain ⟨spans, hs⟩ := hc (pc + 1)
  obtain ⟨dspans, hds⟩ := hd (pc + 1 + c.length + 1)
  obtain ⟨spans', hs'⟩ := hc' (pc + 1 + c.length + 1 + d.length + 1)
  rw [spansFrom_ifElse hi hm he hs hds, hs']
  exact ⟨_, rfl⟩

end Balanced

/-! ## Linked stretches -/

/-- The links of the machine are those of the code. -/
def Linked (links : Links) (pc : Nat) (code : List Instr) : Prop :=
  ∃ spans, spansFrom pc [] code = .ok spans ∧ ∀ x ∈ spans, links.at? x.1 = some x.2

namespace Linked
variable {links : Links} {pc : Nat} {i : Instr} {c c' : List Instr}

theorem flat_inv (hi : i.op.isFlat = true) (h : Linked links pc (i :: c)) : Linked links (pc + 1) c := by
  obtain ⟨spans, hs, hl⟩ := h
  rw [spansFrom_flat hi] at hs
  exact ⟨spans, hs, hl⟩

theorem exists_at? {code k} (h : Linked links pc code) (hi : code[k]? = some i)
    (hm : i.op.isMatched = true) : ∃ span, links.at? (pc + k) = some span := by
  obtain ⟨spans, hs, hl⟩ := h
  have hmem := mem_spansFrom hs (pc + k) (mem_matchedFrom hi hm)
  obtain ⟨x, hx, hk⟩ := mem_map.1 hmem
  exact ⟨x.2, hk ▸ hl x hx⟩

theorem append_inv (hc : Balanced c) (h : Linked links pc (c ++ c')) :
    Linked links pc c ∧ Linked links (pc + c.length) c' := by
  obtain ⟨all, hall, hl⟩ := h
  obtain ⟨spans, hs⟩ := hc pc
  rw [← append_nil ([] : List OpenFrame), spansFrom_append hs] at hall
  obtain ⟨spans', hs', rfl⟩ := map_ok hall
  exact ⟨⟨spans, hs, fun x hx => hl x (mem_append_left _ hx)⟩,
    spans', hs', fun x hx => hl x (mem_append_right _ hx)⟩

theorem frame_inv (hi : i.op.opensFrame = true) (hc : Balanced c)
    (h : Linked links pc (i :: (c ++ plain .endFrame :: c'))) :
    links.at? pc = some ⟨pc + 1 + c.length, none⟩ ∧ Linked links (pc + 1) c ∧
      Linked links (pc + 1 + c.length + 1) c' := by
  obtain ⟨all, hall, hl⟩ := h
  obtain ⟨spans, hs⟩ := hc (pc + 1)
  rw [spansFrom_frame hi rfl hs] at hall
  obtain ⟨spans', hs', rfl⟩ := map_ok hall
  refine ⟨hl (pc, _) (by simp), ⟨spans, hs, fun x hx => hl x (by simp [hx])⟩,
    spans', hs', fun x hx => hl x (by simp [hx])⟩

theorem ifElse_inv {d} (hc : Balanced c) (hd : Balanced d) (h : Linked links pc
      (plain .ifThen :: (c ++ plain .elseArm :: (d ++ plain .endFrame :: c')))) :
    links.at? pc = some ⟨pc + 1 + c.length + 1 + d.length, some (pc + 1 + c.length)⟩ ∧
      links.at? (pc + 1 + c.length) = some ⟨pc + 1 + c.length + 1 + d.length, none⟩ ∧
      Linked links (pc + 1) c ∧ Linked links (pc + 1 + c.length + 1) d ∧
      Linked links (pc + 1 + c.length + 1 + d.length + 1) c' := by
  obtain ⟨all, hall, hl⟩ := h
  obtain ⟨spans, hs⟩ := hc (pc + 1)
  obtain ⟨dspans, hds⟩ := hd (pc + 1 + c.length + 1)
  rw [spansFrom_ifElse rfl rfl rfl hs hds] at hall
  obtain ⟨spans', hs', rfl⟩ := map_ok hall
  exact ⟨hl (pc, _) (by simp), hl (pc + 1 + c.length, _) (by simp),
    ⟨spans, hs, fun x hx => hl x (by simp [hx])⟩, ⟨dspans, hds, fun x hx => hl x (by simp [hx])⟩,
    spans', hs', fun x hx => hl x (by simp [hx])⟩

end Linked

/-! ## The links of a body -/

theorem at?_foldl_of_not_mem {k : Nat} : ∀ {spans : List (Nat × Span)} {links : Links},
    k ∉ spans.map (·.1) →
    (spans.foldl (fun links (pc, span) => links.setIfInBounds pc (some span)) links)[k]? = links[k]?
  | [], _, _ => rfl
  | (pc, span) :: spans, links, h => by
    rw [map_cons, mem_cons, not_or] at h
    rw [foldl_cons, at?_foldl_of_not_mem h.2, Array.getElem?_setIfInBounds_ne (Ne.symm h.1)]

theorem at?_foldl_of_mem : ∀ {spans : List (Nat × Span)} {links : Links},
    (spans.map (·.1)).Nodup → (∀ k ∈ spans.map (·.1), k < links.size) → ∀ x ∈ spans,
    Links.at? (spans.foldl (fun links (pc, span) => links.setIfInBounds pc (some span)) links) x.1 =
      some x.2
  | [], _, _, _, x, hx => by cases hx
  | (pc, span) :: spans, links, hn, hlt, x, hx => by
    rw [map_cons, nodup_cons] at hn
    obtain ⟨hpc, hrest⟩ := forall_mem_cons.1 hlt
    rw [foldl_cons]
    obtain rfl | hx := mem_cons.1 hx
    · rw [Links.at?, at?_foldl_of_not_mem hn.1, Array.getElem?_setIfInBounds_self_of_lt hpc]
      rfl
    · refine at?_foldl_of_mem hn.2 (fun k hk => ?_) x hx
      rw [Array.size_setIfInBounds]
      exact hrest k hk

/-- The links of a body hold its spans. -/
theorem linked_of_link {code : List Instr} {links : Links} (h : link code = .ok links) :
    Linked links 0 code := by
  obtain ⟨spans, hs, h⟩ := bind_ok h
  cases h
  obtain ⟨hn, hk⟩ := spansFrom_keys hs ⟨nodup_nil, fun k hk => by cases hk⟩
  refine ⟨spans, hs, at?_foldl_of_mem hn fun k hmem => ?_⟩
  rw [Array.size_replicate]
  obtain hm | hlt := hk k hmem
  · cases hm
  · omega

theorem at?_foldl_cases {k span} : ∀ (spans : List (Nat × Span)) {links},
    Links.at? (spans.foldl (fun links (pc, span) => links.setIfInBounds pc (some span)) links) k =
      some span → (k, span) ∈ spans ∨ links.at? k = some span
  | [], _, h => .inr h
  | (pc, span') :: spans, links, h => by
    rcases at?_foldl_cases spans h with hmem | hset
    · exact .inl (mem_cons_of_mem _ hmem)
    · rw [Links.at?, Array.getElem?_setIfInBounds] at hset
      split at hset
      · rename_i hpc
        subst hpc
        split at hset
        · obtain rfl : span' = span := Option.some.inj hset
          exact .inl mem_cons_self
        · cases hset
      · exact .inr hset

theorem mem_spans_of_link {body links k span}
    (h : link body = .ok links) (hk : links.at? k = some span) :
    ∃ spans, spansFrom 0 [] body = .ok spans ∧ (k, span) ∈ spans := by
  obtain ⟨spans, hs, h⟩ := bind_ok h
  cases h
  refine ⟨spans, hs, (at?_foldl_cases spans hk).resolve_right ?_⟩
  rw [Links.at?, Array.getElem?_replicate]
  split <;> rintro ⟨⟩

theorem Balanced.link_ok {code} (h : Balanced code) : ∃ links, link code = .ok links := by
  obtain ⟨spans, hs⟩ := h 0
  exact ⟨_, by rw [link, hs]; rfl⟩

/-! ## Lowered code is balanced -/

theorem Straight.isFlat {code} (h : Straight code) : ∀ i ∈ code, i.op.isFlat = true := by
  intro i hi
  cases h i hi <;> rfl

theorem Straight.balanced {code} (h : Straight code) : Balanced code := by
  induction code with
  | nil => exact .nil
  | cons i code ih =>
    obtain ⟨-, hcode⟩ := forall_mem_cons.1 h
    exact .flat (h.isFlat i mem_cons_self) (ih hcode)

theorem ExprCode.balanced {a code} (h : ExprCode a code) : Balanced code :=
  h.straight.balanced

theorem loopCode_eq {l b ccode bcode} :
    (⟨.loop, l⟩ :: ⟨.block, b⟩ :: (ccode ++ (plain .eqz :: ⟨.brIf, b⟩ ::
      (bcode ++ [⟨.br, l⟩, plain .endFrame, plain .endFrame]))) : List Instr) =
    ⟨.loop, l⟩ :: ((⟨.block, b⟩ :: ((ccode ++ (plain .eqz :: ⟨.brIf, b⟩ :: (bcode ++ [⟨.br, l⟩]))) ++
      plain .endFrame :: [])) ++ plain .endFrame :: []) := by
  simp

mutual

theorem StmtCode.balanced : ∀ {loop a code}, StmtCode loop a code → Balanced code
  | _, _, _, .comment => .nil
  | _, _, _, .nothing => .nil
  | _, _, _, .declare _ => .nil
  | _, _, _, .value h => h.balanced
  | _, _, _, .assign _ hr h => (h.straight hr.straight).balanced
  | _, _, _, .branches h => h.balanced
  | _, _, _, .whileLoop hc hb => by
    rw [loopCode_eq]
    refine .frame rfl rfl (.frame rfl rfl (hc.balanced.append ?_) .nil) .nil
    exact .flat rfl (.flat rfl (hb.balanced.append (.one rfl)))
  | _, _, _, .ret => .one rfl
  | _, _, _, .retValue h => h.balanced.append (.one rfl)
  | _, _, _, .brk => .flat rfl (.one rfl)
  | _, _, _, .cont => .flat rfl (.one rfl)
  | _, _, _, .assertion h =>
    h.balanced.append (.flat rfl (.frame (c := [_]) rfl rfl (.one rfl) .nil))

theorem ArmsCode.balanced : ∀ {loop clauses code}, ArmsCode loop clauses code → Balanced code
  | _, _, _, .intro _ hc hb he => hc.balanced.append (he.balanced_frame hb.balanced)

theorem ElseCode.balanced_frame : ∀ {loop clauses bcode code},
    ElseCode loop clauses code → Balanced bcode →
    Balanced (plain .ifThen :: (bcode ++ (code ++ [plain .endFrame])))
  | _, _, _, _, .nil, hb => .frame rfl rfl hb .nil
  | _, _, _, _, .arms h, hb => .ifElse rfl rfl rfl hb h.balanced .nil
  | _, _, _, _, .otherwise h, hb => .ifElse rfl rfl rfl hb h.balanced .nil

theorem StmtsCode.balanced : ∀ {loop stmts code}, StmtsCode loop stmts code → Balanced code
  | _, _, _, .nil => .nil
  | _, _, _, .cons h hs => h.balanced.append hs.balanced

end

end WatScript
