import WatScript.Proofs.LinkedCode
import WatScript.Wat.Verify

/-!
# Linking and verification

The linker and the verifier go through a body with stacks of their own: one keeps where frames start and
divide and stops at the first fault, the other keeps whether an `else` was seen and goes on. They agree on
what is nested (`linkable_iff`), and what both accept are the words of a grammar of frames (`WellNested`).
The links of such a body are its matching (`Matches`), in which what a frame holds is well nested by itself.
-/

namespace WatScript

open List

/-! ## The grammar of frames -/

/-- Every frame is closed by an `end`, and an `else` stands once at most, directly inside an `if`. -/
inductive WellNested : List Instr → Prop
  | nil : WellNested []
  | flat {i code} : i.op.isFlat = true → WellNested code → WellNested (i :: code)
  | frame {i e inner code} : i.op.opensFrame = true → e.op = .endFrame →
      WellNested inner → WellNested code → WellNested (i :: (inner ++ e :: code))
  | divided {i m e first second code} : i.op = .ifThen → m.op = .elseArm →
      e.op = .endFrame → WellNested first → WellNested second → WellNested code →
      WellNested (i :: (first ++ m :: (second ++ e :: code)))

/-- What a position of a body is matched with: a frame with the `end` behind well nested code, an `if`
with its `else` too if it has one, and the `else` with the `end` of its `if`. -/
inductive Matches (body : List Instr) : Nat → Span → Prop
  | frame {before inner after i e} :
      body = before ++ i :: (inner ++ e :: after) → i.op.opensFrame = true → e.op = .endFrame →
      WellNested inner → Matches body before.length ⟨before.length + 1 + inner.length, none⟩
  | divided {before first second after i m e} :
      body = before ++ i :: (first ++ m :: (second ++ e :: after)) → i.op = .ifThen →
      m.op = .elseArm → e.op = .endFrame → WellNested first → WellNested second →
      Matches body before.length ⟨before.length + 1 + first.length + 1 + second.length,
        some (before.length + 1 + first.length)⟩
  | arm {start stop k} : Matches body start ⟨stop, some k⟩ → Matches body k ⟨stop, none⟩

theorem WellNested.balanced {code} (h : WellNested code) : Balanced code := by
  induction h with
  | nil => exact .nil
  | flat hi _ ih => exact .flat hi ih
  | frame hi he _ _ ih ih' => exact .frame hi he ih ih'
  | divided hi hm he _ _ _ ih₁ ih₂ ih => exact .ifElse hi hm he ih₁ ih₂ ih

/-! ## Linked bodies are well nested -/

section
variable {pc : Nat} {frames : List OpenFrame} {code inner rest : List Instr} {spans : List (Nat × Span)}

theorem Balanced.spansFrom_rest (hc : Balanced inner)
    (h : spansFrom pc frames (inner ++ rest) = .ok spans) :
    ∃ later, spansFrom (pc + inner.length) frames rest = .ok later ∧ ∀ x ∈ later, x ∈ spans := by
  obtain ⟨own, hown⟩ := hc pc
  rw [← nil_append frames, spansFrom_append hown] at h
  obtain ⟨later, hlater, rfl⟩ := map_ok h
  exact ⟨later, hlater, fun x hx => mem_append_right _ hx⟩

/-- Where a stretch of well nested code stops: at the end of a body, or at what closes or divides the
innermost open frame. -/
inductive StopsAt : List OpenFrame → List Instr → Prop
  | done : StopsAt [] []
  | close {f outer e rest} : e.op = .endFrame → StopsAt (f :: outer) (e :: rest)
  | divide {start outer m rest} : m.op = .elseArm →
      StopsAt (⟨start, .ifThen, none⟩ :: outer) (m :: rest)

/-- Code that can be linked begins with well nested code, as far as the open frames reach. -/
theorem spansFrom_split (h : spansFrom pc frames code = .ok spans) :
    ∃ inner rest, code = inner ++ rest ∧ WellNested inner ∧ StopsAt frames rest := by
  -- on the length: behind a frame that is opened and closed the code goes on in the same frames
  induction hn : code.length using Nat.strongRecOn generalizing pc frames code spans with
  | _ n ih =>
    subst hn
    cases code with
    | nil =>
      cases frames with
      | nil => exact ⟨[], [], rfl, .nil, .done⟩
      | cons f outer => cases h
    | cons i code =>
      obtain ⟨hop, hc⟩ | ⟨hop, hc⟩ | ⟨start, outer, hop, rfl, hc⟩ | ⟨f, outer, later, hop, rfl, hc, rfl⟩ :=
        spansFrom_cases h
      · obtain ⟨inner, rest, rfl, hinner, hstops⟩ := ih _ (Nat.lt_succ_self _) hc rfl
        exact ⟨i :: inner, rest, rfl, .flat hop hinner, hstops⟩
      · obtain ⟨inner, rest, rfl, hinner, hstops⟩ := ih _ (Nat.lt_succ_self _) hc rfl
        obtain ⟨later, hlater, -⟩ := hinner.balanced.spansFrom_rest hc
        generalize hf : (⟨pc, i.op, none⟩ : OpenFrame) = f at hstops hlater
        cases hstops with
        | @close _ _ e rest he =>
          rw [spansFrom_end he] at hlater
          obtain ⟨later, hlater, -⟩ := map_ok hlater
          obtain ⟨next, rest, rfl, hnext, hstops⟩ := ih _ (by simp; omega) hlater rfl
          exact ⟨i :: (inner ++ e :: next), rest, by simp, .frame hop he hinner hnext, hstops⟩
        | @divide _ _ m rest hm =>
          obtain ⟨-, hif, -⟩ := OpenFrame.mk.inj hf
          rw [spansFrom_else hm] at hlater
          obtain ⟨second, rest, rfl, hsecond, hstops⟩ := ih _ (by simp; omega) hlater rfl
          obtain ⟨later, hlater, -⟩ := hsecond.balanced.spansFrom_rest hlater
          cases hstops with
          | @close _ _ e rest he =>
            rw [spansFrom_end he] at hlater
            obtain ⟨later, hlater, -⟩ := map_ok hlater
            obtain ⟨next, rest, rfl, hnext, hstops⟩ := ih _ (by simp; omega) hlater rfl
            exact ⟨i :: (inner ++ m :: (second ++ e :: next)), rest, by simp,
              .divided hif hm he hinner hsecond hnext, hstops⟩
      · exact ⟨[], _, rfl, .nil, .divide hop⟩
      · exact ⟨[], _, rfl, .nil, .close hop⟩

theorem wellNested_of_spansFrom (h : spansFrom pc [] code = .ok spans) : WellNested code := by
  obtain ⟨inner, rest, rfl, hinner, hstops⟩ := spansFrom_split h
  cases hstops
  rwa [append_nil]

/-! ## Links are the matching -/

theorem WellNested.matches (hcode : WellNested code) {body} (before after : List Instr)
    (hbody : body = before ++ (code ++ after)) (h : spansFrom before.length [] code = .ok spans) :
    ∀ x ∈ spans, Matches body x.1 x.2 := by
  induction hcode generalizing before after spans with
  | nil =>
    cases h
    exact forall_mem_nil _
  | @flat i code hi _ ih =>
    rw [spansFrom_flat hi] at h
    exact ih (before ++ [i]) after (by simp [hbody]) (by simpa using h)
  | @frame i e inner code hi he hinner hcode ih ih' =>
    obtain ⟨own, hown⟩ := hinner.balanced (before.length + 1)
    rw [spansFrom_frame hi he hown] at h
    obtain ⟨later, hlater, rfl⟩ := map_ok h
    rw [forall_mem_append, forall_mem_cons]
    refine ⟨ih (before ++ [i]) (e :: (code ++ after)) (by simp [hbody]) (by simpa using hown), ?_, ?_⟩
    · exact @Matches.frame _ before inner (code ++ after) i e (by simp [hbody]) hi he hinner
    · refine ih' (before ++ i :: (inner ++ [e])) after (by simp [hbody]) ?_
      simpa [Nat.add_assoc, Nat.add_comm, Nat.add_left_comm] using hlater
  | @divided i m e first second code hi hm he hfirst hsecond hcode ih₁ ih₂ ih =>
    obtain ⟨own₁, hown₁⟩ := hfirst.balanced (before.length + 1)
    obtain ⟨own₂, hown₂⟩ := hsecond.balanced (before.length + 1 + first.length + 1)
    rw [spansFrom_ifElse hi hm he hown₁ hown₂] at h
    obtain ⟨later, hlater, rfl⟩ := map_ok h
    have hif := @Matches.divided body before first second (code ++ after) i m e (by simp [hbody])
      hi hm he hfirst hsecond
    rw [forall_mem_append, forall_mem_append, forall_mem_cons, forall_mem_cons]
    refine ⟨ih₁ (before ++ [i]) (m :: (second ++ e :: (code ++ after))) (by simp [hbody])
      (by simpa using hown₁), ?_, hif, .arm hif, ?_⟩
    · refine ih₂ (before ++ i :: (first ++ [m])) (e :: (code ++ after)) (by simp [hbody]) ?_
      simpa [Nat.add_assoc, Nat.add_comm, Nat.add_left_comm] using hown₂
    · refine ih (before ++ i :: (first ++ m :: (second ++ [e]))) after (by simp [hbody]) ?_
      simpa [Nat.add_assoc, Nat.add_comm, Nat.add_left_comm] using hlater

theorem spansFrom_suffix (before : List Instr) (h : spansFrom pc frames (before ++ code) = .ok spans) :
    ∃ frames' later, spansFrom (pc + before.length) frames' code = .ok later ∧ ∀ x ∈ later, x ∈ spans := by
  induction before generalizing pc frames spans with
  | nil => exact ⟨frames, spans, h, fun _ => id⟩
  | cons i before ih =>
    rw [length_cons, Nat.add_comm before.length, ← Nat.add_assoc]
    obtain ⟨-, hc⟩ | ⟨-, hc⟩ | ⟨_, _, -, -, hc⟩ | ⟨_, _, later, -, -, hc, rfl⟩ := spansFrom_cases h
    · exact ih hc
    · exact ih hc
    · exact ih hc
    · obtain ⟨frames', last, hlast, hsub⟩ := ih hc
      exact ⟨frames', last, hlast, fun x hx => mem_append_right _ (hsub x hx)⟩

/-- An `else` has the end of its `if`. -/
theorem arm_mem_spansFrom {start stop k} (h : spansFrom pc frames code = .ok spans)
    (hx : (start, ⟨stop, some k⟩) ∈ spans) : (k, ⟨stop, none⟩) ∈ spans := by
  induction code generalizing pc frames spans with
  | nil =>
    cases frames with
    | nil =>
      cases h
      cases hx
    | cons => cases h
  | cons i code ih =>
    obtain ⟨-, hc⟩ | ⟨-, hc⟩ | ⟨_, _, -, -, hc⟩ | ⟨f, _, later, -, -, hc, rfl⟩ := spansFrom_cases h
    · exact ih hc hx
    · exact ih hc hx
    · exact ih hc hx
    · rw [mem_append] at hx ⊢
      refine hx.imp (fun hx => ?_) (ih hc)
      obtain ⟨s, op, alt⟩ := f
      cases alt <;> simp_all [OpenFrame.spans]

theorem Matches.mem_spans {k span} (hall : spansFrom 0 [] code = .ok spans)
    (h : Matches code k span) : (k, span) ∈ spans := by
  induction h with
  | @frame before inner after i e heq hi he hinner =>
    subst heq
    obtain ⟨frames, later, hlater, hsub⟩ := spansFrom_suffix before hall
    rw [spansFrom_open hi] at hlater
    obtain ⟨last, hlast, hsub'⟩ := hinner.balanced.spansFrom_rest hlater
    rw [spansFrom_end he] at hlast
    obtain ⟨_, -, rfl⟩ := map_ok hlast
    exact hsub _ (hsub' _ (by simp [OpenFrame.spans]))
  | @divided before first second after i m e heq hi hm he hfirst hsecond =>
    subst heq
    obtain ⟨frames, later, hlater, hsub⟩ := spansFrom_suffix before hall
    rw [spansFrom_open (hi ▸ rfl), hi] at hlater
    obtain ⟨last, hlast, hsub'⟩ := hfirst.balanced.spansFrom_rest hlater
    rw [spansFrom_else hm] at hlast
    obtain ⟨final, hfinal, hsub''⟩ := hsecond.balanced.spansFrom_rest hlast
    rw [spansFrom_end he] at hfinal
    obtain ⟨_, -, rfl⟩ := map_ok hfinal
    exact hsub _ (hsub' _ (hsub'' _ (by simp [OpenFrame.spans])))
  | arm _ ih => exact arm_mem_spansFrom hall ih

end

theorem link_at?_iff {code links} (h : link code = .ok links) {k span} :
    links.at? k = some span ↔ Matches code k span := by
  obtain ⟨spans, hs, hl⟩ := linked_of_link h
  constructor
  · intro hk
    obtain ⟨all, hall, hmem⟩ := mem_spans_of_link h hk
    exact (wellNested_of_spansFrom hall).matches [] [] (by simp) hall (k, span) hmem
  · exact fun hm => hl _ (hm.mem_spans hs)

/-! ## The verifier sees the same frames -/

theorem verifyInstr_flat {i} (h : i.op.isFlat = true) (frames : List VerifyFrame) :
    (verifyInstr frames i).1 = frames ∧ ∀ p ∈ (verifyInstr frames i).2, p.isNesting = false := by
  obtain ⟨op, imm⟩ := i
  cases op with
  | block | loop | ifThen | elseArm | endFrame => cases h
  | br | brIf | const | localGet | localSet | localTee | call =>
    refine ⟨rfl, fun p hp => ?_⟩
    simp only [verifyInstr] at hp
    split at hp <;> cases hp
    rfl
  | _ => exact ⟨rfl, by rintro _ ⟨⟩⟩

/-- No fault of nesting is reported from here on. -/
def KeepsNesting (offset : Nat) (frames : List VerifyFrame) (code : List Instr) : Prop :=
  ∀ f ∈ verifyFrom offset frames code, f.problem.isNesting = false

theorem keepsNesting_cons {offset frames i code} :
    KeepsNesting offset frames (i :: code) ↔ (∀ p ∈ (verifyInstr frames i).2, p.isNesting = false) ∧
      KeepsNesting (offset + 1) (verifyInstr frames i).1 code := by
  simp only [KeepsNesting, verifyFrom, forall_mem_append]
  cases (verifyInstr frames i).2 <;> simp

/-- An open frame as the verifier and as the linker keep it. -/
def VerifyFrame.IsSame (v : VerifyFrame) (f : OpenFrame) : Prop := v.op = f.op ∧ v.hasElse = f.alt.isSome

theorem linkable_iff {vs frames} (h : Forall₂ VerifyFrame.IsSame vs frames) {pc offset code} :
    (∃ spans, spansFrom pc frames code = .ok spans) ↔ KeepsNesting offset vs code := by
  induction code generalizing pc offset vs frames with
  | nil =>
    cases h with
    | nil => exact iff_of_true ⟨[], rfl⟩ (forall_mem_nil _)
    | cons => exact iff_of_false (by rintro ⟨_, ⟨⟩⟩) fun h => by cases h _ mem_cons_self
  | cons i code ih =>
    rw [keepsNesting_cons]
    cases hflat : i.op.isFlat with
    | true =>
      obtain ⟨hframes, hproblem⟩ := verifyInstr_flat hflat vs
      rw [spansFrom_flat hflat, hframes, ih h]
      exact (and_iff_right hproblem).symm
    | false =>
      obtain ⟨op, imm⟩ := i
      cases op with
      | block | loop | ifThen =>
        rw [spansFrom_open rfl]
        exact (ih (.cons ⟨rfl, rfl⟩ h)).trans (and_iff_right (by rintro _ ⟨⟩)).symm
      | elseArm =>
        cases h with
        | nil => exact iff_of_false (by rintro ⟨_, ⟨⟩⟩) fun h => by cases h.1 _ rfl
        | @cons v f vs outer hv h =>
          obtain ⟨op, label, hasElse⟩ := v
          obtain ⟨start, op', alt⟩ := f
          obtain ⟨rfl, rfl⟩ : op = op' ∧ hasElse = alt.isSome := hv
          by_cases hop : op = .ifThen
          · subst hop
            cases alt with
            | none =>
              rw [spansFrom_else rfl]
              exact (ih (.cons ⟨rfl, rfl⟩ h)).trans (and_iff_right (by rintro _ ⟨⟩)).symm
            | some e => exact iff_of_false (by rintro ⟨_, ⟨⟩⟩) fun h => by cases h.1 _ rfl
          · refine iff_of_false ?_ fun h => ?_
            · rintro ⟨spans, hs⟩
              obtain ⟨h, -⟩ | ⟨h, -⟩ | ⟨_, _, -, h, -⟩ | ⟨_, _, _, h, -⟩ := spansFrom_cases hs
              all_goals cases h
              exact hop rfl
            · have hproblem := h.1
              simp only [verifyInstr, beq_eq_false_iff_ne.2 hop] at hproblem
              cases hproblem _ rfl
      | endFrame =>
        cases h with
        | nil => exact iff_of_false (by rintro ⟨_, ⟨⟩⟩) fun h => by cases h.1 _ rfl
        | @cons v f vs outer hv h =>
          have hmap : ∀ r : Except Trap (List (Nat × Span)),
              (∃ spans, r.map (f.spans pc ++ ·) = .ok spans) ↔ ∃ spans, r = .ok spans := by
            intro r
            cases r <;> simp [Except.map]
          rw [spansFrom_end rfl, hmap, ih h]
          exact (and_iff_right (by rintro _ ⟨⟩)).symm
      | _ => cases hflat

/-- A body can be linked if and only if the verifier reports no fault of nesting. Then it is well nested,
everything in it that is matched with an `end` has a link, and the links are its matching. -/
theorem linking_agrees_with_verification (code : List Instr) :
    ((∃ links, link code = .ok links) ↔ ∀ f ∈ verify code, f.problem.isNesting = false) ∧
    ∀ links, link code = .ok links → WellNested code ∧
      (∀ k i, code[k]? = some i → i.op.isMatched = true → ∃ span, links.at? k = some span) ∧
      ∀ k span, links.at? k = some span ↔ Matches code k span := by
  have hspans : (∃ links, link code = .ok links) ↔ ∃ spans, spansFrom 0 [] code = .ok spans := by
    rw [link]
    cases spansFrom 0 [] code <;> simp [bind, Except.bind, pure, Except.pure]
  refine ⟨hspans.trans (linkable_iff .nil), fun links h =>
    ⟨?_, fun k i hi hm => ?_, fun k span => link_at?_iff h⟩⟩
  · obtain ⟨spans, hs, -⟩ := linked_of_link h
    exact wellNested_of_spansFrom hs
  · simpa using (linked_of_link h).exists_at? hi hm

end WatScript
