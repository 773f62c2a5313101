import WatScript.Proofs.EnclosingFrames
import WatScript.Proofs.Reuse
import WatScript.Wat.Verify

/-!
# The label stack

In a linked body the label stack is at every step the list of the frames around the instruction
(`State.InFrames`): this holds where a run starts, and what a step does to the labels (`Machine.Moves`)
is what its target does to the frames. So an `else` and an end find a label to take, and the branches of a
verified body find their labels, since verification keeps track of the same frames (`verified_at`).
-/

namespace WatScript

open List

/-! ## Entered frames -/

/-- The label is that of the frame, entered at some height of the value stack. -/
def Label.Enters (l : Label) (f : CodeFrame) : Prop :=
  ∃ height, l = f.head.label f.start f.stop height

/-- The entered frames are those around the instruction. -/
def State.InFrames (body : List Instr) (s : State) : Prop :=
  Forall₂ Label.Enters s.labels (enclosing body s.pc)

section
variable {body : List Instr} {m : Machine} {s s' : State} {i : Instr} {n : Nat}

theorem State.InFrames.drop (hs : s.InFrames body) {l outer}
    (h : s.labels.drop n = l :: outer) : ∃ f, frameAt? body f.start = some f ∧ l.Enters f ∧
      Forall₂ Label.Enters outer (enclosing body f.start) := by
  have hdrop := forall₂_drop n hs
  rw [h] at hdrop
  obtain ⟨f, outer', hl, houter, hframes⟩ := forall₂_cons_left_iff.1 hdrop
  obtain ⟨hf, rfl⟩ := suffix_enclosing (hframes ▸ drop_suffix n _)
  exact ⟨f, hf, hl, houter⟩

theorem Machine.Moves.inFrames (h : m.Moves i s s') (hl : link body = .ok m.links)
    (hi : body[s.pc]? = some i) (hs : s.InFrames body) : s'.InFrames body := by
  unfold State.InFrames at hs ⊢
  cases h with
  | next hop hpc hlabels =>
    rw [hpc, hlabels, enclosing_inner hi (by rw [Op.isInner, hop, Bool.true_or])]
    exact hs
  | @enter span height hop hspan hlabels hpc =>
    obtain ⟨stop, hf⟩ := exists_frameAt?_of_link hl hi hop
    have hopen := enclosing_open hf
    obtain ⟨f, hhead, hstop, helse⟩ := spanOf_link hl hspan
    rw [hopen] at hhead
    cases hhead
    have hframes : enclosing body s'.pc = ⟨i, s.pc, stop⟩ :: enclosing body s.pc := by
      -- the first arm, or the second one behind the `else`
      rcases hpc with hpc | ⟨e, he, hpc⟩
      · rw [hpc, hopen]
      · obtain ⟨outer, houter⟩ := head?_eq_some_iff.1 (helse e he)
        rw [hpc, houter]
        exact congrArg _ (outer_eq_enclosing ⟨[], houter.symm⟩)
    rw [hlabels, hframes]
    exact .cons ⟨height, congrArg (i.label s.pc · height) hstop.symm⟩ hs
  | pass hop hspan hpc hlabels =>
    obtain ⟨stop, hf⟩ := exists_frameAt?_of_link hl hi (by rw [hop]; rfl)
    obtain ⟨f, hhead, hstop, -⟩ := spanOf_link hl hspan
    rw [enclosing_open hf] at hhead
    cases hhead
    rw [hpc, hlabels, ← hstop, enclosing_behind hf]
    exact hs
  | leaveArm hop hspan hpc hlabels =>
    obtain ⟨f, hhead, hstop, -⟩ := spanOf_link hl hspan
    rw [enclosing_inner hi (by rw [hop]; rfl)] at hhead
    obtain ⟨outer, houter⟩ := head?_eq_some_iff.1 hhead
    obtain ⟨hf, rfl⟩ := suffix_enclosing ⟨[], houter.symm⟩
    rw [hpc, hlabels, ← hstop, enclosing_behind hf]
    rw [houter] at hs
    obtain ⟨l, ls, -, htail, hcons⟩ := forall₂_cons_right_iff.1 hs
    rw [hcons]
    exact htail
  | leave hop hpc hlabels =>
    rw [hpc, hlabels, enclosing_end hi hop, ← drop_one, ← drop_one]
    exact forall₂_drop 1 hs
  | «repeat» _ hdrop _ hpc hlabels =>
    obtain ⟨f, hf, ⟨height, rfl⟩, houter⟩ := State.InFrames.drop hs hdrop
    have hframes : enclosing body s'.pc = f :: enclosing body f.start := by
      rw [hpc]
      exact enclosing_open hf
    rw [hlabels, hframes]
    exact .cons ⟨height, rfl⟩ houter
  | exit _ hdrop hpc hlabels =>
    obtain ⟨f, hf, ⟨height, rfl⟩, houter⟩ := State.InFrames.drop hs hdrop
    have hframes : enclosing body s'.pc = enclosing body f.start := by
      rw [hpc]
      exact enclosing_behind hf
    rw [hlabels, hframes]
    exact houter

theorem Machine.Steps.inFrames (h : m.Steps n s s') (hl : link body = .ok m.links)
    (hcode : m.code = body.toArray) (hs : s.InFrames body) : s'.InFrames body := by
  induction h with
  | refl => exact hs
  | head hi hstep _ ih =>
    rw [hcode, getElem?_toArray] at hi
    exact ih ((Machine.step_stepped hstep).moves.inFrames hl hi hs)

theorem State.InFrames.labels_ne_nil (hs : s.InFrames body) (h : enclosing body s.pc ≠ []) :
    s.labels ≠ [] := by
  intro hnil
  unfold State.InFrames at hs
  rw [hnil] at hs
  exact h (forall₂_nil_left_iff.1 hs)

end

/-! ## Verified branches -/

section
variable {body code : List Instr} {links : Links} {frames : List VerifyFrame} {i : Instr} {pc k : Nat}

theorem verifyInstr_open (h : i.op.opensFrame = true) :
    (verifyInstr frames i).1.map (·.label) = i.imm :: frames.map (·.label) := by
  obtain ⟨op, imm⟩ := i
  cases op with
  | block | loop | ifThen => rfl
  | _ => cases h

theorem verifyInstr_inner (h : i.op.isInner = true) :
    (verifyInstr frames i).1.map (·.label) = frames.map (·.label) := by
  obtain ⟨op, imm⟩ := i
  cases op with
  | block | loop | ifThen | endFrame => cases h
  | elseArm =>
    cases frames with
    | nil => rfl
    | cons f outer =>
      simp only [verifyInstr]
      split <;> rfl
  | _ => rfl

theorem verifyInstr_end (h : i.op = .endFrame) : (verifyInstr frames i).1 = frames.tail := by
  obtain ⟨op, imm⟩ := i
  obtain rfl : op = .endFrame := h
  cases frames <;> rfl

theorem verifyFrom_cons (h : verifyFrom pc frames (i :: code) = []) :
    (verifyInstr frames i).2 = none ∧ verifyFrom (pc + 1) (verifyInstr frames i).1 code = [] := by
  have hboth : ((verifyInstr frames i).2.map (VerifyFault.mk pc)).toList ++
    verifyFrom (pc + 1) (verifyInstr frames i).1 code = [] := h
  obtain ⟨hproblem, hrest⟩ := append_eq_nil_iff.1 hboth
  refine ⟨?_, hrest⟩
  cases hp : (verifyInstr frames i).2 with
  | none => rfl
  | some problem =>
    rw [hp] at hproblem
    cases hproblem

/-- Verification comes to each position with the frames around it open, and finds no fault there. -/
theorem verified_at (hl : link body = .ok links) (hv : verify body = []) : ∀ k ≤ body.length,
    ∃ frames, verifyFrom k frames (body.drop k) = [] ∧
      frames.map (·.label) = (enclosing body k).map (·.head.imm)
  | 0, _ => ⟨[], hv, rfl⟩
  | k + 1, hk => by
    obtain ⟨frames, hrest, hlabels⟩ := verified_at hl hv k (Nat.le_of_succ_le hk)
    have hi : body[k]? = some body[k] := getElem?_eq_getElem hk
    generalize body[k] = i at hi
    rw [drop_eq_cons hi] at hrest
    refine ⟨_, (verifyFrom_cons hrest).2, ?_⟩
    rcases i.op.open_or_inner_or_end with hop | hop | hop
    · obtain ⟨stop, hf⟩ := exists_frameAt?_of_link hl hi hop
      rw [verifyInstr_open hop, hlabels, enclosing_open hf]
      rfl
    · rw [verifyInstr_inner hop, hlabels, enclosing_inner hi hop]
    · rw [verifyInstr_end hop, map_tail, hlabels, enclosing_end hi hop, map_tail]

variable {m : Machine} {s : State}

theorem State.InFrames.names_eq (hs : s.InFrames body)
    (hif : ∀ i ∈ body, i.op = .ifThen → i.imm = []) :
    s.labels.map (·.name) = (enclosing body s.pc).map (·.head.imm) := by
  rw [← forall₂_eq_eq_eq, forall₂_map_left_iff, forall₂_map_right_iff]
  have hmem : Forall₂ (fun l f => Label.Enters l f ∧ f ∈ enclosing body s.pc) s.labels
      (enclosing body s.pc) :=
    forall₂_iff_get.2 ⟨hs.length_eq, fun k hk hk' => ⟨hs.get hk hk', get_mem ..⟩⟩
  refine hmem.imp ?_
  rintro l f ⟨⟨height, rfl⟩, hf⟩
  have hhead := (frameAt?_eq_some.1 (mem_enclosing.1 hf).1).2.1
  show (if f.head.op == .ifThen then [] else f.head.imm) = f.head.imm
  split
  · exact (hif _ (mem_of_getElem? hhead) (eq_of_beq ‹_›)).symm
  · rfl

theorem State.branchDistance?_ne_none {target}
    (hlabels : s.labels.map (·.name) = frames.map (·.label))
    (h : labelInScope frames target = true) : s.branchDistance? target ≠ none := by
  have hlength : s.labels.length = frames.length := by
    simpa using congrArg List.length hlabels
  unfold labelInScope at h
  unfold State.branchDistance?
  cases hn : Numeral.int64? target.toChars with
  | some n =>
    rw [hn] at h
    dsimp only at h ⊢
    rw [hlength, if_pos h]
    nofun
  | none =>
    rw [hn] at h
    obtain ⟨hempty, hany⟩ := Bool.and_eq_true_iff.1 h
    obtain ⟨f, hf, hlabel⟩ := any_eq_true.1 hany
    have hname : target ∈ s.labels.map (·.name) :=
      hlabels ▸ mem_map.2 ⟨f, hf, eq_of_beq hlabel⟩
    obtain ⟨l, hl, rfl⟩ := mem_map.1 hname
    have hlt : s.labels.findIdx (fun l' => !l'.name.isEmpty && l'.name == l.name) <
        s.labels.length := by
      refine findIdx_lt_length_of_exists ⟨l, hl, ?_⟩
      rw [hempty, beq_self_eq_true]
      rfl
    dsimp only
    rw [if_pos hlt]
    nofun

theorem State.InFrames.not_raises (hs : s.InFrames body) (hl : link body = .ok m.links)
    (hv : verify body = []) (hif : ∀ i ∈ body, i.op = .ifThen → i.imm = [])
    (hi : body[s.pc]? = some i) : ¬m.Raises s i .unknownLabel ∧ ¬m.Raises s i .malformed := by
  obtain ⟨frames, hrest, hlabels⟩ :=
    verified_at hl hv s.pc (Nat.le_of_lt (List.getElem?_eq_some_iff.1 hi).1)
  rw [drop_eq_cons hi] at hrest
  have hproblem := (verifyFrom_cons hrest).1
  obtain ⟨op, imm⟩ := i
  constructor
  · rintro ⟨hop, hnone⟩
    have hscope : labelInScope frames imm = true := by
      cases op with
      | br | brIf =>
        by_contra hscope
        simp [verifyInstr, hscope] at hproblem
      | _ => cases hop
    exact State.branchDistance?_ne_none ((hs.names_eq hif).trans hlabels.symm) hscope hnone
  · rintro (⟨hop, hnone⟩ | ⟨hop, hnone⟩)
    · have hm : op.isMatched = true := by simpa [Op.isMatched] using hop
      obtain ⟨span, hspan⟩ := (linked_of_link hl).exists_at? hi hm
      rw [Nat.zero_add, hnone] at hspan
      cases hspan
    · obtain rfl : op = .const := hop
      simp [verifyInstr, hnone] at hproblem

end

/-! ## Instances -/

/-- What an instance may have become by earlier runs: nothing is known of its stack and its memory, nor of
what its hosts have kept of these runs. -/
def Instance.Becomes (x y : Instance) : Prop := ∃ hosts, y.machine = { x.machine with hosts }

/-- At every step of any run of a linked body, whatever its hosts answer, the label stack is the list of the
frames around the instruction, with their start, their end and their name; so an `else` and an end find a
label, and every span that is looked up is there. If the body is verified and no `if` carries an immediate,
no run ends at an unknown label or as malformed. -/
theorem labels_are_enclosing_frames {m : Module} {hosts : List (String × Host)} {limit : Nat}
    {maxPages : Int} {x y : Instance} (hx : Instance.create m hosts limit maxPages = .ok x)
    (hy : x.Becomes y) :
    (∀ args n s, y.machine.Steps n (y.initialState args) s →
      List.Forall₂ Label.Enters s.labels (enclosing m.body s.pc) ∧
      ∀ i, m.body[s.pc]? = some i →
        (i.op = .elseArm ∨ i.op = .endFrame → s.labels ≠ []) ∧
        (i.op.isMatched = true → ∃ span, y.machine.links.at? s.pc = some span)) ∧
    (verify m.body = [] → (∀ i ∈ m.body, i.op = .ifThen → i.imm = []) → ∀ canceled args,
      (y.run canceled args).2.result ≠ .error .unknownLabel ∧
      (y.run canceled args).2.result ≠ .error .malformed) := by
  obtain ⟨-, hcode, hl, -⟩ := Instance.create_parts hx
  obtain ⟨hosts', hy⟩ := hy
  rw [← show y.machine.code = x.machine.code by rw [hy]] at hcode
  rw [← show y.machine.links = x.machine.links by rw [hy]] at hl
  have hframes {args : List Int32} {n : Nat} {s : State}
      (hs : y.machine.Steps n (y.initialState args) s) : s.InFrames m.body :=
    hs.inFrames hl hcode .nil
  constructor
  · intro args n s hs
    refine ⟨hframes hs, fun i hi => ⟨fun hop => ?_, fun hm => ?_⟩⟩
    · exact (hframes hs).labels_ne_nil (enclosing_ne_nil hl hi hop)
    · obtain ⟨span, hspan⟩ := (linked_of_link hl).exists_at? hi hm
      exact ⟨span, Nat.zero_add s.pc ▸ hspan⟩
  · intro hv hif canceled args
    -- a run that ends in one of the two traps would come to an instruction that raises it
    have hraises {t : Trap} (h : (y.run canceled args).2.result = .error t)
        (ht : t = .unknownLabel ∨ t = .malformed) : ∃ s i, s.InFrames m.body ∧
          m.body[s.pc]? = some i ∧ y.machine.Raises s i t := by
      rcases Instance.run_error h with rfl | rfl | rfl | ⟨s', hrun⟩
      · simp at ht
      · simp at ht
      · simp at ht
      · rcases Machine.runFor_raises hrun with rfl | rfl | ⟨n, s, i, hs, hi, hraises⟩
        · simp at ht
        · simp at ht
        · rw [hcode, List.getElem?_toArray] at hi
          exact ⟨s, i, hframes hs, hi, hraises⟩
    constructor
    · intro h
      obtain ⟨s, i, hs, hi, hr⟩ := hraises h (.inl rfl)
      exact (hs.not_raises hl hv hif hi).1 hr
    · intro h
      obtain ⟨s, i, hs, hi, hr⟩ := hraises h (.inr rfl)
      exact (hs.not_raises hl hv hif hi).2 hr

/-- An `if` in a loop that runs until a host has been called often enough: its `else` stands in both
frames, and the branch to the loop finds its label. -/
theorem labels_are_enclosing_frames_loop :
    ∃ m x, m = { Module.trial [⟨.loop, Instr.ident "L"⟩, .call "next", Instr.plain .ifThen,
          ⟨.br, Instr.ident "L"⟩, Instr.plain .elseArm, Instr.plain .nop, Instr.plain .endFrame,
          Instr.plain .endFrame, .localGet "b"] with imports := [⟨"env", "next", 0, 1⟩] } ∧
      Instance.create m [("next", fun history _ =>
        history.reply (.ok [ofBool (history.calls.length < 3)]))] 0 0 = .ok x ∧
      (x.run false [2, 7]).2.result = .ok 7 ∧ (x.run false [2, 7]).2.calls.length = 4 ∧
      (enclosing m.body 4).map (fun f => (f.start, f.stop)) = [(2, 6), (0, 7)] ∧
      (∀ args n s, x.machine.Steps n (x.initialState args) s →
        List.Forall₂ Label.Enters s.labels (enclosing m.body s.pc)) ∧
      ∀ canceled args, (x.run canceled args).2.result ≠ .error .unknownLabel := by
  obtain ⟨m, hm⟩ : ∃ m, m = { Module.trial [⟨.loop, Instr.ident "L"⟩, .call "next",
      Instr.plain .ifThen, ⟨.br, Instr.ident "L"⟩, Instr.plain .elseArm, Instr.plain .nop,
      Instr.plain .endFrame, Instr.plain .endFrame, .localGet "b"] with
    imports := [⟨"env", "next", 0, 1⟩] } := ⟨_, rfl⟩
  have hruns : ((Instance.create m [("next", fun history _ =>
      history.reply (.ok [ofBool (history.calls.length < 3)]))] 0 0).map fun x =>
        let r := (x.run false [2, 7]).2
        decide (r.result = .ok 7 ∧ r.calls.length = 4)).toOption = some true := by
    rw [hm]
    decide +kernel
  have hbody : verify m.body = [] ∧ (∀ i ∈ m.body, i.op = .ifThen → i.imm = []) ∧
      (enclosing m.body 4).map (fun f => (f.start, f.stop)) = [(2, 6), (0, 7)] := by
    rw [hm]
    decide +kernel
  obtain ⟨x, hx, hruns⟩ := map_ok (toOption_ok hruns)
  obtain ⟨hresult, hcalls⟩ := of_decide_eq_true hruns
  obtain ⟨hlabels, hverified⟩ := labels_are_enclosing_frames hx ⟨_, rfl⟩
  exact ⟨m, x, hm, hx, hresult, hcalls, hbody.2.2, fun args n s hs => (hlabels args n s hs).1,
    fun canceled args => (hverified hbody.1 hbody.2.1 canceled args).1⟩

end WatScript
