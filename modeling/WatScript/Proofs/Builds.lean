import Mathlib.Data.List.TakeWhile
import WatScript.Command.Line
import WatScript.Proofs.Result
import WatScript.Proofs.Utf8

/-!
# What a build leaves

A build of several files writes what it renders one after the other into a directory, each under a name
that is made of the name of its file. A write changes one file and keeps all others (`Disk.read_write`,
`Disk.read_write_of_ne`), and different names lead to different places (`Path.exists_placeOf_join`). So
under every name there is what was written last, and what was rendered before for a file of the same name
is lost (`CommandLine.build_leaves_last_outputs`).
-/

namespace WatScript

open List

/-! ## Writing files -/

namespace Disk
variable {d d' : Disk} {p q : Place} {path path' : String} {content old : List UInt8}

theorem lookup_filter_ne (h : q ≠ p) (files : List (Place × List UInt8)) :
    (files.filter fun x => x.1 != p).lookup q = files.lookup q := by
  have hbeq : (q == p) = false := beq_eq_false_iff_ne.2 h
  induction files with
  | nil => rfl
  | cons f files ih =>
    by_cases hf : f.1 = p
    · rw [filter_cons_of_neg (by simp [hf]), ih, lookup_cons, hf, hbeq]
    · rw [filter_cons_of_pos (by simp [hf]), lookup_cons, lookup_cons, ih]

/-- What is on a disk stays there when another file is written. -/
theorem entry_put_of_ne (hne : q ≠ p) (hq : d.entry q ≠ .missing) :
    (d.put p content).entry q = d.entry q := by
  have hlookup : (d.put p content).files.lookup q = d.files.lookup q := by
    show ((p, content) :: d.files.filter fun x => x.1 != p).lookup q = _
    rw [lookup_cons, beq_eq_false_iff_ne.2 hne, lookup_filter_ne hne]
  have hdirectory : d.isDirectory q = true → (d.put p content).isDirectory q = true := by
    simp only [isDirectory, put, Bool.or_eq_true, any_eq_true]
    rintro (h | ⟨f, hf, hin⟩)
    · exact .inl h
    · -- a directory that holds the old file holds the new one
      refine .inr ?_
      by_cases hp : f.1 = p
      · exact ⟨_, mem_cons_self, by simpa [hp] using hin⟩
      · exact ⟨f, mem_cons_of_mem _ (mem_filter.2 ⟨hf, by simpa using hp⟩), hin⟩
  unfold entry at hq ⊢
  rw [hlookup]
  cases hl : d.files.lookup q with
  | some old => rfl
  | none =>
    rw [hl] at hq
    cases hd : d.isDirectory q with
    | false => simp [hd] at hq
    | true => rw [hdirectory hd]

/-- Only directories are gone through. -/
theorem follow_cons {part parts} (h : d.follow p (part :: parts) = .ok q) :
    d.entry p = .directory ∧ d.follow (next p part) parts = .ok q := by
  rw [follow] at h
  cases hp : d.entry p with
  | missing | file => simp [hp] at h
  | directory => exact ⟨rfl, by simpa only [hp] using h⟩

theorem follow_put (hp : d.entry p ≠ .directory) {parts r}
    (h : d.follow q parts = .ok r) : (d.put p content).follow q parts = .ok r := by
  induction parts generalizing q with
  | nil => exact h
  | cons part parts ih =>
    obtain ⟨hq, h⟩ := follow_cons h
    have hne : q ≠ p := by
      rintro rfl
      exact hp hq
    rw [follow, entry_put_of_ne hne (by simp [hq]), hq]
    exact ih h

/-- The place that a path leads to, on every disk where it leads to one. -/
def placeOf (path : String) : Place := (Path.parts path).foldl next (origin path)

theorem eq_foldl_of_follow {parts} (h : d.follow p parts = .ok q) : q = parts.foldl next p := by
  induction parts generalizing p with
  | nil => exact (Except.ok.inj h).symm
  | cons part parts ih => exact ih (follow_cons h).2

theorem locate_ok (h : d.locate path = .ok p) :
    p = placeOf path ∧ path.isEmpty = false ∧ d.follow (origin path) (Path.parts path) = .ok p := by
  unfold locate at h
  split at h
  · cases h
  · next hne => exact ⟨eq_foldl_of_follow h, by simpa using hne, h⟩

theorem locate_put (hp : d.entry p ≠ .directory) (h : d.locate path = .ok q) :
    (d.put p content).locate path = .ok q := by
  obtain ⟨-, hne, hfollow⟩ := locate_ok h
  simp only [locate, hne, Bool.false_eq_true, if_false]
  exact follow_put hp hfollow

theorem read_ok_iff : d.read path = .ok content ↔
    ∃ p, d.locate path = .ok p ∧ d.entry p = .file content := by
  unfold read
  cases d.locate path with
  | error cause => simp
  | ok p => cases h : d.entry p <;> simp [h]

theorem write_ok (h : d.write path content = .ok d') :
    ∃ p, d.locate path = .ok p ∧ d.entry p ≠ .directory ∧ d' = d.put p content := by
  have htarget : ∀ {p}, d.target path = .ok p → d.locate path = .ok p := by
    intro p ht
    unfold target at ht
    dsimp only at ht
    split at ht
    · obtain ⟨_, -, ht⟩ := bind_ok ht
      cases ht
    · exact ht
  unfold write at h
  cases ht : d.target path with
  | error cause => simp [ht] at h
  | ok p => cases hp : d.entry p <;> simp_all

theorem read_write (h : d.write path content = .ok d') : d'.read path = .ok content := by
  obtain ⟨p, hlocate, hp, rfl⟩ := write_ok h
  exact read_ok_iff.2 ⟨p, locate_put hp hlocate, by simp [entry, put]⟩

theorem read_write_of_ne (hne : placeOf path' ≠ placeOf path) (h : d.write path content = .ok d')
    (hread : d.read path' = .ok old) : d'.read path' = .ok old := by
  obtain ⟨p, hlocate, hp, rfl⟩ := write_ok h
  obtain ⟨q, hlocate', hq⟩ := read_ok_iff.1 hread
  rw [← (locate_ok hlocate).1, ← (locate_ok hlocate').1] at hne
  exact read_ok_iff.2 ⟨q, locate_put hp hlocate', by rw [entry_put_of_ne hne (by simp [hq]), hq]⟩

variable {f : String × List UInt8} {files before after : List (String × List UInt8)}

theorem writeAll_cons (h : d.writeAll (f :: files) = (d', none)) :
    ∃ d₁, d.write f.1 f.2 = .ok d₁ ∧ d₁.writeAll files = (d', none) := by
  rw [writeAll] at h
  cases hw : d.write f.1 f.2 with
  | error => simp [hw] at h
  | ok d₁ =>
    rw [hw] at h
    exact ⟨d₁, rfl, h⟩

theorem writeAll_keeps (hfiles : ∀ f ∈ files, placeOf path ≠ placeOf f.1)
    (h : d.writeAll files = (d', none)) (hread : d.read path = .ok old) : d'.read path = .ok old := by
  induction files generalizing d with
  | nil =>
    cases h
    exact hread
  | cons f files ih =>
    obtain ⟨d₁, hwrite, h⟩ := writeAll_cons h
    obtain ⟨hne, hfiles⟩ := forall_mem_cons.1 hfiles
    exact ih hfiles h (read_write_of_ne hne hwrite hread)

/-- The last file that is written to a place stays there. -/
theorem writeAll_last (hafter : ∀ g ∈ after, placeOf f.1 ≠ placeOf g.1)
    (h : d.writeAll (before ++ f :: after) = (d', none)) : d'.read f.1 = .ok f.2 := by
  induction before generalizing d with
  | nil =>
    obtain ⟨d₁, hwrite, h⟩ := writeAll_cons h
    exact writeAll_keeps hafter h (read_write hwrite)
  | cons _ before ih =>
    obtain ⟨d₁, -, h⟩ := writeAll_cons h
    exact ih h

end Disk

/-! ## Names in a directory -/

namespace Path
variable {name path : String}

/-- The name of something in a directory, which leads nowhere else. -/
structure IsPlain (name : String) : Prop where
  no_slash : ∀ c ∈ name.toList, (c == '/') = false
  ne_empty : name ≠ ""
  ne_dots : name ≠ "." ∧ name ≠ ".."

theorem splitFrom_free {α sep xs} (h : ∀ x ∈ xs, sep x = false)
    (held : List α) : Text.splitFrom sep held xs = [held.reverse ++ xs] := by
  induction xs generalizing held with
  | nil => simp [Text.splitFrom]
  | cons x xs ih =>
    obtain ⟨hx, h⟩ := forall_mem_cons.1 h
    simp [Text.splitFrom, hx, ih h]

theorem splitFrom_append {α sep x} (hx : sep x = true) {ys}
    (h : ∀ y ∈ ys, sep y = false) (xs held : List α) :
    Text.splitFrom sep held (xs ++ x :: ys) = Text.splitFrom sep held xs ++ [ys] := by
  induction xs generalizing held with
  | nil => simp [Text.splitFrom, hx, splitFrom_free h]
  | cons z xs ih => cases hz : sep z <;> simp [Text.splitFrom, hz, ih]

theorem parts_append (h : ∀ c ∈ name.toList, (c == '/') = false) (directory : String) :
    parts (directory ++ "/" ++ name) = parts directory ++ [name] := by
  have hlist : (directory ++ "/" ++ name).toList = directory.toList ++ '/' :: name.toList := by simp
  rw [parts, hlist, Text.split, splitFrom_append rfl h, map_append, ← Text.split, ← parts]
  simp

theorem isRooted_append (directory name : String) :
    isRooted (directory ++ "/" ++ name) = isRooted (directory ++ "/") := by
  cases hd : directory.toList <;> simp [isRooted, hd]

theorem IsPlain.cleanFrom_append (h : IsPlain name) (rooted : Bool) (kept ps : List String) :
    cleanFrom rooted kept (ps ++ [name]) = cleanFrom rooted kept ps ++ [name] := by
  fun_induction cleanFrom rooted kept ps with
  | case1 kept => simp [cleanFrom, h.ne_empty, h.ne_dots]
  | _ => simp_all [cleanFrom]

theorem clean_eq {inner} (hne : inner ≠ "")
    (h : "/".intercalate (cleanFrom (isRooted path) [] (parts path)) = inner) :
    clean path = (if isRooted path then "/" else "") ++ inner := by
  unfold clean
  dsimp only
  rw [h]
  split <;> simp_all

/-- A name in a directory stands alone, or behind the path of the directory. -/
theorem join_cases (directory : String) : (∀ name, IsPlain name → join directory name = name) ∨
    ∃ a, ∀ name, IsPlain name → join directory name = a ++ "/" ++ name := by
  obtain ⟨root, kept, hroot, hjoin⟩ : ∃ (root : String) (kept : List String),
      (root = "" ∨ root = "" ++ "/") ∧ ∀ {name inner}, IsPlain name → inner ≠ "" →
        "/".intercalate (kept ++ [name]) = inner → join directory name = root ++ inner := by
    refine ⟨if isRooted (directory ++ "/") then "/" else "",
      cleanFrom (isRooted (directory ++ "/")) [] (parts directory), ?_, fun h hne heq => ?_⟩
    · split <;> simp
    · rw [join, clean_eq hne, isRooted_append]
      rw [isRooted_append, parts_append h.no_slash, h.cleanFrom_append, heq]
  by_cases hkept : kept = []
  · subst hkept
    rcases hroot with rfl | rfl
    · exact .inl fun name h => (hjoin h h.ne_empty String.intercalate_singleton).trans String.empty_append
    · exact .inr ⟨"", fun name h => hjoin h h.ne_empty String.intercalate_singleton⟩
  · refine .inr ⟨root ++ "/".intercalate kept, fun name h => ?_⟩
    rw [hjoin h (by simp) (String.intercalate_append_of_ne_nil hkept (by simp)),
      String.intercalate_singleton, String.append_assoc, String.append_assoc, String.append_assoc]

/-- Different names lead to different places. -/
theorem exists_placeOf_join (directory : String) : ∃ place : Place, ∀ name, IsPlain name →
    Disk.placeOf (join directory name) = place ++ [name] := by
  rcases join_cases directory with hjoin | ⟨a, hjoin⟩
  · refine ⟨[], fun name h => ?_⟩
    have hparts : parts name = [name] := by simp [parts, Text.split, splitFrom_free h.no_slash]
    have hrooted : isRooted name = false := by
      rw [isRooted]
      cases hn : name.toList with
      | nil => rfl
      | cons c cs => simpa using h.no_slash c (by simp [hn])
    simp [hjoin name h, Disk.placeOf, Disk.origin, hparts, hrooted, Disk.next, h.ne_empty, h.ne_dots]
  · refine ⟨(parts a).foldl Disk.next (Disk.origin (a ++ "/")), fun name h => ?_⟩
    rw [hjoin name h, Disk.placeOf, parts_append h.no_slash, Disk.origin, isRooted_append, ← Disk.origin,
      foldl_append]
    simp [Disk.next, h.ne_empty, h.ne_dots]

theorem stem_no_slash {c} (hc : c ∈ path.toList) (hslash : (c == '/') = false) :
    ∀ x ∈ (stem path).toList, (x == '/') = false := by
  have hbase : ∀ x ∈ (base path).toList, (x == '/') = false := by
    unfold base
    split
    · next hempty => simp [String.isEmpty_iff.1 hempty] at hc
    · split
      · next htrim =>
        rw [Text.trimEnd, reverse_eq_nil_iff, dropWhile_eq_nil_iff] at htrim
        simp [htrim c (mem_reverse.2 hc)] at hslash
      · intro x hx
        rw [String.toList_ofList, mem_reverse] at hx
        simpa using mem_takeWhile_imp hx
  intro x hx
  unfold stem at hx
  dsimp only at hx
  split at hx
  · rw [String.toList_ofList] at hx
    exact hbase x (mem_of_mem_take hx)
  · rw [String.toList_ofList] at hx
    exact hbase x hx

end Path

/-- A path that ends in a slash leads to a directory. -/
theorem Disk.exists_name_of_read {d : Disk} {path : String} {content : List UInt8}
    (h : d.read path = .ok content) : ∃ c ∈ path.toList, (c == '/') = false := by
  have hblank : ∀ {parts : List String} {p q : Place}, d.follow p (parts ++ [""]) = .ok q →
      d.entry q = .directory := by
    intro parts
    induction parts with
    | nil =>
      intro p q h
      obtain ⟨hp, h⟩ := follow_cons h
      cases h
      exact hp
    | cons part parts ih => exact fun h => ih (follow_cons h).2
  obtain ⟨p, hlocate, hentry⟩ := read_ok_iff.1 h
  obtain ⟨-, hne, hfollow⟩ := locate_ok hlocate
  have hlist : path.toList ≠ [] := by simpa using hne
  refine ⟨_, getLast_mem hlist, ?_⟩
  by_contra hslash
  have hpath : path = String.ofList path.toList.dropLast ++ "/" ++ "" := by
    apply String.toList_inj.1
    conv_lhs => rw [← dropLast_concat_getLast hlist]
    simpa using hslash
  rw [hpath, Path.parts_append (by simp)] at hfollow
  simp [hblank hfollow] at hentry

/-! ## Writing what was rendered -/

namespace CommandLine
variable {disk d d' : Disk} {stage : Stage} {directory : String} {rendered : List Rendered}

theorem bytesOf_injective {s s'} (h : bytesOf s = bytesOf s') : s = s' := by
  have hdecoded : ∀ s, Text.IsDecoded (.ofString s) := fun s => by
    have hchars : ∀ g ∈ Text.ofString s, g.isStray = false := by simp [Text.ofString, Glyph.isStray]
    simpa using (Text.isDecoded_append hchars []).2 trivial
  have htext := Text.encode_injective (hdecoded s) (hdecoded s') h
  exact String.toList_inj.1 (map_injective_iff.2 (fun _ _ h => Glyph.char.inj h) htext)

theorem isPlain_outputName {stageName : String} (hlisted : Stage.isListed stageName = true) {path : String}
    {content : List UInt8} (hread : disk.read path = .ok content) :
    Path.IsPlain (outputName (.ofName stageName) path) := by
  have hextension : '/' ∉ (Stage.ofName stageName).extension.toList ∧
      (Stage.ofName stageName).extension.toList.getLast? = some 't' := by
    simp only [Stage.isListed, contains_eq_mem, decide_eq_true_eq, mem_cons, not_mem_nil, or_false] at hlisted
    rcases hlisted with rfl | rfl | rfl | rfl | rfl <;> decide
  have hlast : (outputName (.ofName stageName) path).toList.getLast? = some 't' := by
    simp [outputName, getLast?_append, getLast?_cons, hextension.2]
  refine ⟨fun c hc => ?_, ?_, ?_, ?_⟩
  · simp only [outputName, String.toList_append, mem_append] at hc
    rcases hc with (hc | hc) | hc
    · obtain ⟨x, hx, hslash⟩ := Disk.exists_name_of_read hread
      exact Path.stem_no_slash hx hslash c hc
    · rw [eq_of_mem_singleton hc]
      rfl
    · simpa using ne_of_mem_of_not_mem hc hextension.1
  all_goals
    intro h
    rw [h] at hlast
    cases hlast

theorem renderAll_ok {e files} (h : renderAll disk stage e files = .ok rendered) :
    rendered.map (·.path) = files ∧ ∀ r ∈ rendered, ∃ content, disk.read r.path = .ok content := by
  induction files generalizing e rendered with
  | nil =>
    cases h
    exact ⟨rfl, forall_mem_nil _⟩
  | cons path files ih =>
    obtain ⟨content, hread, h⟩ := bind_ok h
    obtain ⟨text, -, h⟩ := bind_ok h
    obtain ⟨later, hlater, h⟩ := bind_ok h
    cases h
    obtain ⟨hpaths, hreads⟩ := ih hlater
    exact ⟨congrArg (path :: ·) hpaths, forall_mem_cons.2 ⟨⟨content, mapError_ok hread⟩, hreads⟩⟩

/-- The output for a file is where it goes. -/
def Rendered.IsIn (d : Disk) (directory : String) (stage : Stage) (r : Rendered) : Prop :=
  d.read (outputFile directory stage r).1 = .ok (outputFile directory stage r).2
  deriving Decidable

theorem isIn_of_last (hplain : ∀ r ∈ rendered, Path.IsPlain (outputName stage r.path))
    (h : d.writeAll (rendered.map (outputFile directory stage)) = (d', none))
    {before after r} (heq : rendered = before ++ r :: after)
    (hafter : ∀ x ∈ after, outputName stage x.path ≠ outputName stage r.path) :
    r.IsIn d' directory stage := by
  subst heq
  obtain ⟨place, hplace⟩ := Path.exists_placeOf_join directory
  have hfile : ∀ x ∈ before ++ r :: after,
      Disk.placeOf (outputFile directory stage x).1 = place ++ [outputName stage x.path] := by
    intro x hx
    simp only [outputFile]
    exact hplace _ (hplain x hx)
  rw [map_append, map_cons] at h
  refine Disk.writeAll_last (forall_mem_map.2 fun x hx => ?_) h
  rw [hfile r (by simp), hfile x (by simp [hx])]
  simpa using (hafter x hx).symm

theorem forall_isIn_iff (hplain : ∀ r ∈ rendered, Path.IsPlain (outputName stage r.path))
    (h : d.writeAll (rendered.map (outputFile directory stage)) = (d', none)) :
    (∀ r ∈ rendered, r.IsIn d' directory stage) ↔ ∀ r ∈ rendered, ∀ x ∈ rendered,
      outputName stage x.path = outputName stage r.path → x.text = r.text := by
  constructor
  · intro hall r hr x hx hname
    have hin := hall x hx
    have hpath : (outputFile directory stage x).1 = (outputFile directory stage r).1 := by
      simp only [outputFile, hname]
    rw [Rendered.IsIn, hpath, hall r hr] at hin
    exact (bytesOf_injective (Except.ok.inj hin)).symm
  · intro hsame r hr
    -- the last file whose output gets that name, looked for from the end
    have hsome :
        (rendered.reverse.find? fun x => outputName stage x.path == outputName stage r.path).isSome :=
      find?_isSome.2 ⟨r, mem_reverse.2 hr, beq_iff_eq.2 rfl⟩
    obtain ⟨x, hx⟩ := Option.isSome_iff_exists.1 hsome
    obtain ⟨hname, after, before, hsplit, hafter⟩ := find?_eq_some_iff_append.1 hx
    have hrendered : rendered = before.reverse ++ x :: after.reverse := by
      simpa using congrArg reverse hsplit
    have hname : outputName stage x.path = outputName stage r.path := beq_iff_eq.1 hname
    have hin : x.IsIn d' directory stage := isIn_of_last hplain h hrendered fun y hy => by
      rw [hname]
      simpa using hafter y (mem_reverse.1 hy)
    have htext : x.text = r.text := hsame r hr x (by simp [hrendered]) hname
    rw [Rendered.IsIn, outputFile] at hin ⊢
    rwa [hname, htext] at hin

/-! ## Building -/

theorem deliver_ok {output} (hne : output.isEmpty = false) (htwo : 2 ≤ rendered.length)
    (h : (deliver disk stage output rendered).failure = none) :
    ∃ d : Disk, d.writeAll (rendered.map (outputFile output stage)) =
      ((deliver disk stage output rendered).disk, none) := by
  rcases rendered with _ | ⟨r, _ | ⟨r', later⟩⟩
  · simp at htwo
  · simp at htwo
  · unfold deliver at h ⊢
    simp only [hne, Bool.false_eq_true, if_false] at h ⊢
    cases hd : disk.makeDirectories output with
    | error f => simp [hd, CommandResult.failed] at h
    | ok d =>
      simp only [hd, Option.map_eq_none_iff] at h ⊢
      exact ⟨d, Prod.ext rfl h⟩

theorem build_ok {store globals locals stageName}
    (hstage : (locals.text? ["emit"]).getD "wat" = stageName)
    (h : (build store disk globals locals).failure = none) :
    Stage.isListed stageName = true ∧ ∃ s rendered, settings disk globals locals = .ok s ∧
      renderAll disk (.ofName stageName) (engineOf store s.engine) locals.rest = .ok rendered ∧
      build store disk globals locals = deliver disk (.ofName stageName)
        ((locals.text? ["output", "o"]).getD "") rendered := by
  unfold build at h ⊢
  dsimp only at h ⊢
  rw [hstage] at h ⊢
  split at h
  · cases h
  · split at h
    · cases h
    · next hempty hlisted =>
      refine ⟨by simpa using hlisted, ?_⟩
      rw [if_neg hempty, if_neg hlisted]
      cases hs : settings disk globals locals with
      | error d => simp [hs, CommandResult.failed] at h
      | ok s =>
        simp only [hs] at h ⊢
        cases hr : renderAll disk (.ofName stageName) (engineOf store s.engine) locals.rest with
        | error d => simp [hr, CommandResult.failed] at h
        | ok rendered => exact ⟨s, rendered, rfl, hr, rfl⟩

/-- A build of several files into a directory leaves, under every name, what it rendered last for a file
of that name. So it loses nothing if and only if files whose outputs get the same name render to the same
text. -/
theorem build_leaves_last_outputs {store : Store} {disk : Disk} {globals locals : GivenOptions}
    {output : String} (houtput : locals.text? ["output", "o"] = some output) (hne : output ≠ "")
    (hfiles : 2 ≤ locals.rest.length) (hbuilt : (build store disk globals locals).failure = none) :
    let stage := Stage.ofName ((locals.text? ["emit"]).getD "wat")
    let left := (build store disk globals locals).disk
    ∃ s rendered, settings disk globals locals = .ok s ∧
      renderAll disk stage (engineOf store s.engine) locals.rest = .ok rendered ∧
      rendered.map (·.path) = locals.rest ∧
      (∀ before r after, rendered = before ++ r :: after →
        (∀ x ∈ after, outputName stage x.path ≠ outputName stage r.path) → r.IsIn left output stage) ∧
      ((∀ r ∈ rendered, r.IsIn left output stage) ↔ ∀ r ∈ rendered, ∀ x ∈ rendered,
        outputName stage x.path = outputName stage r.path → x.text = r.text) := by
  intro stage left
  obtain ⟨hlisted, s, rendered, hs, hrender, hdeliver⟩ := build_ok rfl hbuilt
  obtain ⟨hpaths, hreads⟩ := renderAll_ok hrender
  have hplain : ∀ r ∈ rendered, Path.IsPlain (outputName stage r.path) := by
    intro r hr
    obtain ⟨content, hread⟩ := hreads r hr
    exact isPlain_outputName hlisted hread
  rw [houtput, Option.getD_some] at hdeliver
  rw [hdeliver] at hbuilt
  obtain ⟨d, hwritten⟩ := deliver_ok (by simpa using hne)
    (by rwa [← hpaths, length_map] at hfiles) hbuilt
  rw [← hdeliver] at hwritten
  exact ⟨s, rendered, hs, hrender, hpaths, fun _ _ _ heq hafter => isIn_of_last hplain hwritten heq hafter,
    forall_isIn_iff hplain hwritten⟩

/-- Of two outputs with the same name the second one stays. -/
theorem build_leaves_last_outputs_second : ∃ r : Rendered, r.path = "x.txt" ∧ r.IsIn
    (build .empty (.ofFiles [("x.li", []), ("x.txt", [97])]) ⟨[], []⟩
      ⟨[("emit", .text "tokens"), ("output", .text "out")], ["x.li", "x.txt"]⟩).disk "out" .tokens := by
  obtain ⟨_, rendered, -, -, hpaths, hlast, -⟩ := @build_leaves_last_outputs .empty
    (.ofFiles [("x.li", []), ("x.txt", [97])]) ⟨[], []⟩
    ⟨[("emit", .text "tokens"), ("output", .text "out")], ["x.li", "x.txt"]⟩ "out"
    rfl (by decide) (by decide) (by decide +kernel)
  obtain ⟨r, x, rfl, hx⟩ : ∃ r x : Rendered, rendered = [r, x] ∧ x.path = "x.txt" := by
    rcases rendered with _ | ⟨r, _ | ⟨x, _ | _⟩⟩ <;> simp_all
  exact ⟨x, hx, hlast [r] x [] rfl (by simp)⟩

/-- Both files are built, and one output is left. -/
theorem build_overwrites_output :
    let disk := Disk.ofFiles [("x.li", []), ("x.txt", [97])]
    let built := execute .empty disk ["build", "--emit", "tokens", "--output", "out", "x.li", "x.txt"]
    built.failure.isNone = true ∧ ∃ rendered,
      renderAll disk .tokens (engineOf .empty Config.standard) ["x.li", "x.txt"] = .ok rendered ∧
      ∃ r ∈ rendered, ¬r.IsIn built.disk "out" .tokens := by
  have hview :
      let disk := Disk.ofFiles [("x.li", []), ("x.txt", [97])]
      let built := execute .empty disk ["build", "--emit", "tokens", "--output", "out", "x.li", "x.txt"]
      built.failure.isNone = true ∧
        (renderAll disk .tokens (engineOf .empty Config.standard) ["x.li", "x.txt"]).map (fun rendered =>
          rendered.any fun r => decide ¬r.IsIn built.disk "out" .tokens) = .ok true := by
    decide +kernel
  intro disk built
  obtain ⟨hsuccess, hview⟩ : built.failure.isNone = true ∧ _ := hview
  obtain ⟨rendered, hrender, hlost⟩ := map_ok hview
  obtain ⟨r, hr, hlost⟩ := any_eq_true.1 hlost
  exact ⟨hsuccess, rendered, hrender, r, hr, of_decide_eq_true hlost⟩

end CommandLine

end WatScript
