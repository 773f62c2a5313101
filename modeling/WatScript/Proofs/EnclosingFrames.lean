import WatScript.Proofs.JumpTargets

/-!
# Frames around an instruction

A frame of a body reaches from the instruction that opens it to the end that closes it, which is found
by counting (`endFrom`). The frames around a position are those that are opened before it and end there
or later (`enclosing`). Along the body they change by one at most: a frame is added behind its opening
and dropped behind its end. The spans of a linked body are those of its frames (`spanOf_link`).
-/

namespace WatScript

open List

/-! ## Frames of a body -/

/-- A frame of a body: the instruction that opens it, and where that and its end stand. -/
structure CodeFrame where
  head : Instr
  start : Nat
  stop : Nat
  deriving DecidableEq, Repr

/-- The position of the end that closes the frame `depth` levels further out, in code from `pc` on. -/
def endFrom : Nat → Nat → List Instr → Option Nat
  | _, _, [] => none
  | depth, pc, i :: rest =>
    match i.op, depth with
    | .endFrame, 0 => some pc
    | .endFrame, depth + 1 => endFrom depth (pc + 1) rest
    | op, depth => endFrom (if op.opensFrame then depth + 1 else depth) (pc + 1) rest

/-- The frame that is opened at a position. -/
def frameAt? (body : List Instr) (k : Nat) : Option CodeFrame :=
  (body[k]?).bind fun i =>
    if i.op.opensFrame then
      (endFrom 0 (k + 1) (body.drop (k + 1))).map fun stop => ⟨i, k, stop⟩
    else none

/-- The frames around a position, innermost first. -/
def enclosing (body : List Instr) (pc : Nat) : List CodeFrame :=
  ((List.range pc).reverse.filterMap (frameAt? body)).filter fun f => pc ≤ f.stop

section
variable {body code : List Instr} {i : Instr} {depth pc k stop : Nat} {f : CodeFrame}

theorem endFrom_open (h : i.op.opensFrame = true) :
    endFrom depth pc (i :: code) = endFrom (depth + 1) (pc + 1) code := by
  obtain ⟨op, imm⟩ := i
  cases op with
  | block | loop | ifThen => rfl
  | _ => cases h

/-- The instruction neither opens a frame nor ends one. -/
def Op.isInner (op : Op) : Bool := op.isFlat || op == .elseArm

theorem endFrom_inner (h : i.op.isInner = true) :
    endFrom depth pc (i :: code) = endFrom depth (pc + 1) code := by
  obtain ⟨op, imm⟩ := i
  cases op with
  | block | loop | ifThen | endFrame => cases h
  | _ => rfl

theorem endFrom_end_zero (h : i.op = .endFrame) : endFrom 0 pc (i :: code) = some pc := by
  simp only [endFrom, h]

theorem endFrom_end_succ (h : i.op = .endFrame) :
    endFrom (depth + 1) pc (i :: code) = endFrom depth (pc + 1) code := by
  simp only [endFrom, h]

theorem Op.open_or_inner_or_end (op : Op) :
    op.opensFrame = true ∨ op.isInner = true ∨ op = .endFrame := by
  cases op <;> simp [Op.opensFrame, Op.isInner, Op.isFlat]

theorem endFrom_spec : ∀ {code depth pc}, endFrom depth pc code = some stop →
    ∃ n i, stop = pc + n ∧ code[n]? = some i ∧ i.op = .endFrame
  | i :: code, depth, pc, h => by
    have hlater {d : Nat} (h : endFrom d (pc + 1) code = some stop) :
        ∃ n j, stop = pc + n ∧ (i :: code)[n]? = some j ∧ j.op = .endFrame := by
      obtain ⟨n, j, hstop, hj, hop⟩ := endFrom_spec h
      exact ⟨n + 1, j, by omega, hj, hop⟩
    rcases i.op.open_or_inner_or_end with hi | hi | hi
    · exact hlater (endFrom_open hi ▸ h)
    · exact hlater (endFrom_inner hi ▸ h)
    · cases depth with
      | zero =>
        rw [endFrom_end_zero hi] at h
        exact ⟨0, i, (Option.some.inj h).symm, rfl, hi⟩
      | succ depth => exact hlater (endFrom_end_succ hi ▸ h)

theorem frameAt?_eq_some : frameAt? body k = some f ↔
    f.start = k ∧ body[k]? = some f.head ∧ f.head.op.opensFrame = true ∧
      endFrom 0 (k + 1) (body.drop (k + 1)) = some f.stop := by
  unfold frameAt?
  constructor
  · intro h
    obtain ⟨i, hi, h⟩ := Option.bind_eq_some_iff.1 h
    split at h
    · obtain ⟨stop, hstop, rfl⟩ := Option.map_eq_some_iff.1 h
      exact ⟨rfl, hi, ‹_›, hstop⟩
    · cases h
  · obtain ⟨i, start, stop⟩ := f
    rintro ⟨rfl, hi, hop, hstop⟩
    simp only [hi, Option.bind_some, hop, if_true, hstop, Option.map_some]

theorem frameAt?_stop (h : frameAt? body k = some f) :
    k < f.stop ∧ ∃ j, body[f.stop]? = some j ∧ j.op = .endFrame := by
  obtain ⟨-, -, -, hstop⟩ := frameAt?_eq_some.1 h
  obtain ⟨n, j, hn, hj, hop⟩ := endFrom_spec hstop
  rw [getElem?_drop, ← hn] at hj
  exact ⟨by omega, j, hj, hop⟩

theorem mem_enclosing : f ∈ enclosing body pc ↔
    frameAt? body f.start = some f ∧ f.start < pc ∧ pc ≤ f.stop := by
  simp only [enclosing, mem_filter, mem_filterMap, mem_reverse, mem_range,
    decide_eq_true_eq]
  constructor
  · rintro ⟨⟨k, hk, hf⟩, hstop⟩
    obtain rfl := (frameAt?_eq_some.1 hf).1
    exact ⟨hf, hk, hstop⟩
  · rintro ⟨hf, hk, hstop⟩
    exact ⟨⟨f.start, hk, hf⟩, hstop⟩

theorem enclosing_zero (body : List Instr) : enclosing body 0 = [] := rfl

theorem enclosing_succ (body : List Instr) (pc : Nat) : enclosing body (pc + 1) =
    (frameAt? body pc).toList ++ (enclosing body pc).filter fun f => f.stop ≠ pc := by
  have hnew : (frameAt? body pc).toList.filter (fun f => pc + 1 ≤ f.stop) =
      (frameAt? body pc).toList := by
    cases h : frameAt? body pc with
    | none => rfl
    | some f => exact filter_cons_of_pos (decide_eq_true (frameAt?_stop h).1)
  have hold (f : CodeFrame) : (decide (f.stop ≠ pc) && decide (pc ≤ f.stop)) =
      decide (pc + 1 ≤ f.stop) := by
    rw [← Bool.decide_and]
    exact decide_eq_decide.2 (by omega)
  unfold enclosing
  rw [range_succ, reverse_append, filterMap_append, filter_append,
    filter_filter, funext hold, reverse_singleton, filterMap_cons, filterMap_nil]
  refine congrArg (· ++ _) (Eq.trans ?_ hnew)
  cases frameAt? body pc <;> rfl

end

/-! ## Along the body -/

section
variable {body code : List Instr} {i : Instr} {depth pc : Nat} {f : CodeFrame}

theorem drop_eq_cons (h : body[pc]? = some i) : body.drop pc = i :: body.drop (pc + 1) := by
  obtain ⟨hlt, rfl⟩ := List.getElem?_eq_some_iff.1 h
  exact drop_eq_getElem_cons hlt

theorem exists_endFrom_of_succ : ∀ {code depth pc stop},
    endFrom (depth + 1) pc code = some stop → ∃ stop', endFrom depth pc code = some stop'
  | i :: code, depth, pc, stop, h => by
    rcases i.op.open_or_inner_or_end with hi | hi | hi
    · rw [endFrom_open hi] at h ⊢
      exact exists_endFrom_of_succ h
    · rw [endFrom_inner hi] at h ⊢
      exact exists_endFrom_of_succ h
    · rw [endFrom_end_succ hi] at h
      cases depth with
      | zero => exact ⟨pc, endFrom_end_zero hi⟩
      | succ depth =>
        rw [endFrom_end_succ hi]
        exact exists_endFrom_of_succ h

theorem exists_endFrom_zero {stop} (h : endFrom depth pc code = some stop) :
    ∃ stop', endFrom 0 pc code = some stop' := by
  induction depth generalizing stop with
  | zero => exact ⟨stop, h⟩
  | succ depth ih =>
    obtain ⟨stop', h⟩ := exists_endFrom_of_succ h
    exact ih h

theorem enclosing_of_ne_end (hi : body[pc]? = some i) (hop : i.op ≠ .endFrame) :
    enclosing body (pc + 1) = (frameAt? body pc).toList ++ enclosing body pc := by
  rw [enclosing_succ]
  refine congrArg (_ ++ ·) (filter_eq_self.2 fun f hf => decide_eq_true ?_)
  rintro rfl
  obtain ⟨-, j, hj, hend⟩ := frameAt?_stop (mem_enclosing.1 hf).1
  rw [hi] at hj
  cases hj
  exact hop hend

theorem frameAt?_eq_none (hi : body[pc]? = some i) (hop : i.op.opensFrame = false) :
    frameAt? body pc = none := by
  simp [frameAt?, hi, hop]

theorem enclosing_inner (hi : body[pc]? = some i) (hop : i.op.isInner = true) :
    enclosing body (pc + 1) = enclosing body pc := by
  have hkind : i.op.opensFrame = false ∧ i.op ≠ .endFrame := by
    revert hop
    cases i.op <;> simp [Op.opensFrame, Op.isInner, Op.isFlat]
  rw [enclosing_of_ne_end hi hkind.2, frameAt?_eq_none hi hkind.1]
  rfl

theorem enclosing_open (hf : frameAt? body pc = some f) :
    enclosing body (pc + 1) = f :: enclosing body pc := by
  obtain ⟨-, hi, hop, -⟩ := frameAt?_eq_some.1 hf
  have hend : f.head.op ≠ .endFrame := by
    intro hend
    rw [hend] at hop
    cases hop
  rw [enclosing_of_ne_end hi hend, hf]
  rfl

/-- The frames around `pc` end where counting from `pc` finds their ends. -/
def Stops (body : List Instr) (pc : Nat) : Prop := ∀ (d : Nat) (f : CodeFrame),
  (enclosing body pc)[d]? = some f → endFrom d pc (body.drop pc) = some f.stop

theorem Stops.enclosing_end (hs : Stops body pc) (hi : body[pc]? = some i) (hop : i.op = .endFrame) :
    enclosing body (pc + 1) = (enclosing body pc).tail ∧
      ∀ f ∈ (enclosing body pc).head?, f.stop = pc := by
  have hopen : i.op.opensFrame = false := by rw [hop]; rfl
  rw [enclosing_succ, frameAt?_eq_none hi hopen, Option.toList_none, nil_append]
  unfold Stops at hs
  rw [drop_eq_cons hi] at hs
  cases henclosing : enclosing body pc with
  | nil => exact ⟨rfl, nofun⟩
  | cons f outer =>
    rw [henclosing] at hs
    have hstop : f.stop = pc := by
      have hfirst := hs 0 f rfl
      rw [endFrom_end_zero hop] at hfirst
      exact (Option.some.inj hfirst).symm
    -- the others end further on
    have hothers : ∀ g ∈ outer, g.stop ≠ pc := by
      intro g hg
      obtain ⟨d, hd⟩ := mem_iff_getElem?.1 hg
      have hlater := hs (d + 1) g hd
      rw [endFrom_end_succ hop] at hlater
      obtain ⟨n, -, hn, -⟩ := endFrom_spec hlater
      omega
    refine ⟨?_, by rintro _ ⟨⟩; exact hstop⟩
    rw [filter_cons_of_neg (by simpa using hstop), tail_cons]
    exact filter_eq_self.2 fun g hg => decide_eq_true (hothers g hg)

theorem Stops.enclosing_off (hs : Stops body pc) (hi : body[pc]? = none) :
    enclosing body pc = [] := by
  cases henclosing : enclosing body pc with
  | nil => rfl
  | cons f outer =>
    have hfirst := hs 0 f (by rw [henclosing]; rfl)
    rw [drop_eq_nil_of_le (List.getElem?_eq_none_iff.1 hi)] at hfirst
    cases hfirst

/-- By induction on the position: counting starts one frame further in behind an opening, and one
further out behind an end. -/
theorem stops (body : List Instr) : ∀ pc, Stops body pc
  | 0 => by
    intro d f hf
    rw [enclosing_zero] at hf
    cases hf
  | pc + 1 => by
    have ih := stops body pc
    intro d f hf
    cases hi : body[pc]? with
    | none =>
      rw [enclosing_succ, ih.enclosing_off hi] at hf
      simp [frameAt?, hi] at hf
    | some i =>
      have hcount := ih
      unfold Stops at hcount
      rw [drop_eq_cons hi] at hcount
      rcases i.op.open_or_inner_or_end with hop | hop | hop
      · have hend : i.op ≠ .endFrame := by
          intro hend
          rw [hend] at hop
          cases hop
        rw [enclosing_of_ne_end hi hend] at hf
        cases hg : frameAt? body pc with
        | some g =>
          rw [hg] at hf
          cases d with
          | zero =>
            cases hf
            exact (frameAt?_eq_some.1 hg).2.2.2
          | succ d => exact endFrom_open hop ▸ hcount d f hf
        | none =>
          -- a frame without an end is in no frame with one
          rw [hg] at hf
          have houter := hcount d f hf
          rw [endFrom_open hop] at houter
          obtain ⟨stop, hstop⟩ := exists_endFrom_zero houter
          have hsome : frameAt? body pc = some ⟨i, pc, stop⟩ :=
            frameAt?_eq_some.2 ⟨rfl, hi, hop, hstop⟩
          rw [hg] at hsome
          cases hsome
      · rw [enclosing_inner hi hop] at hf
        exact endFrom_inner hop ▸ hcount d f hf
      · rw [(ih.enclosing_end hi hop).1, getElem?_tail] at hf
        exact endFrom_end_succ hop ▸ hcount (d + 1) f hf

theorem enclosing_end (hi : body[pc]? = some i) (hop : i.op = .endFrame) :
    enclosing body (pc + 1) = (enclosing body pc).tail :=
  ((stops body pc).enclosing_end hi hop).1

theorem outer_eq_enclosing : ∀ {pc f outer},
    f :: outer <:+ enclosing body pc → outer = enclosing body f.start
  | 0, f, outer, hf => by
    rw [enclosing_zero] at hf
    cases suffix_nil.1 hf
  | pc + 1, f, outer, hf => by
    cases hi : body[pc]? with
    | none =>
      rw [enclosing_succ, (stops body pc).enclosing_off hi] at hf
      simp [frameAt?, hi] at hf
    | some i =>
      by_cases hop : i.op = .endFrame
      · rw [enclosing_end hi hop] at hf
        exact outer_eq_enclosing (hf.trans (tail_suffix _))
      · rw [enclosing_of_ne_end hi hop] at hf
        cases hg : frameAt? body pc with
        | none =>
          rw [hg] at hf
          exact outer_eq_enclosing hf
        | some g =>
          rw [hg] at hf
          rcases suffix_cons_iff.1 hf with heq | hf
          · obtain ⟨rfl, rfl⟩ := List.cons.inj heq
            exact congrArg (enclosing body) (frameAt?_eq_some.1 hg).1.symm
          · exact outer_eq_enclosing hf

theorem suffix_enclosing {outer} (h : f :: outer <:+ enclosing body pc) :
    frameAt? body f.start = some f ∧ outer = enclosing body f.start :=
  ⟨(mem_enclosing.1 (h.mem mem_cons_self)).1, outer_eq_enclosing h⟩

theorem enclosing_behind (hf : frameAt? body pc = some f) :
    enclosing body (f.stop + 1) = enclosing body pc := by
  obtain ⟨hlt, j, hj, hop⟩ := frameAt?_stop hf
  obtain rfl := (frameAt?_eq_some.1 hf).1
  have hmem : f ∈ enclosing body f.stop := mem_enclosing.2 ⟨hf, hlt, Nat.le_refl _⟩
  rw [enclosing_end hj hop]
  -- of the frames around its end the frame is the innermost: the others end further on
  obtain ⟨d, hd⟩ := mem_iff_getElem?.1 hmem
  have hstop := stops body f.stop d f hd
  rw [drop_eq_cons hj] at hstop
  cases d with
  | zero =>
    obtain ⟨outer, houter⟩ := head?_eq_some_iff.1 (head?_eq_getElem? ▸ hd)
    rw [houter, tail_cons]
    exact outer_eq_enclosing ⟨[], houter.symm⟩
  | succ d =>
    rw [endFrom_end_succ hop] at hstop
    obtain ⟨n, -, hn, -⟩ := endFrom_spec hstop
    omega

end

/-! ## Linked bodies -/

section
variable {body : List Instr} {i : Instr} {pc : Nat} {frames : List OpenFrame}
  {spans all : List (Nat × Span)}

theorem exists_endFrom : ∀ {code pc frames spans}, spansFrom pc frames code = .ok spans →
    ∀ d < frames.length, ∃ stop, endFrom d pc code = some stop
  | [], pc, frames, spans, h, d, hd => by
    cases frames with
    | nil => cases hd
    | cons => cases h
  | i :: code, pc, frames, spans, h, d, hd => by
    obtain ⟨hop, hc⟩ | ⟨hop, hc⟩ | ⟨start, outer, hop, rfl, hc⟩ | ⟨f, outer, later, hop, rfl, hc, -⟩ :=
      spansFrom_cases h
    · rw [endFrom_inner (by rw [Op.isInner, hop, Bool.true_or])]
      exact exists_endFrom hc d hd
    · rw [endFrom_open hop]
      exact exists_endFrom hc (d + 1) (Nat.succ_lt_succ hd)
    · rw [endFrom_inner (by rw [hop]; rfl)]
      exact exists_endFrom hc d hd
    · cases d with
      | zero => exact ⟨pc, endFrom_end_zero hop⟩
      | succ d =>
        rw [endFrom_end_succ hop]
        exact exists_endFrom hc d (Nat.lt_of_succ_lt_succ hd)

/-- Behind each position of the open frame, `f` is the innermost frame. -/
def OpenFrame.Opens (body : List Instr) (o : OpenFrame) (f : CodeFrame) : Prop :=
  ∀ k ∈ o.positions, (enclosing body (k + 1)).head? = some f

/-- The span is that of the frame which is innermost behind its position, and behind its `else`. -/
def SpanOf (body : List Instr) (x : Nat × Span) : Prop := ∃ f,
  (enclosing body (x.1 + 1)).head? = some f ∧ f.stop = x.2.stop ∧
    ∀ e ∈ x.2.alt, (enclosing body (e + 1)).head? = some f

/-- Linking has come to `pc`: the open frames are those around `pc`, and the spans that are not to come
are those of frames. -/
structure LinkedTo (body : List Instr) (all : List (Nat × Span)) (pc : Nat)
    (frames : List OpenFrame) (spans : List (Nat × Span)) : Prop where
  rest : spansFrom pc frames (body.drop pc) = .ok spans
  opens : Forall₂ (OpenFrame.Opens body) frames (enclosing body pc)
  found : ∀ x ∈ all, x ∈ spans ∨ SpanOf body x

namespace LinkedTo

theorem start (h : spansFrom 0 [] body = .ok all) : LinkedTo body all 0 [] all :=
  ⟨h, .nil, fun _ hx => .inl hx⟩

theorem exists_frameAt? (h : LinkedTo body all pc frames spans) (hi : body[pc]? = some i)
    (hop : i.op.opensFrame = true) : ∃ stop, frameAt? body pc = some ⟨i, pc, stop⟩ := by
  have hrest := h.rest
  rw [drop_eq_cons hi, spansFrom_open hop] at hrest
  obtain ⟨stop, hstop⟩ := exists_endFrom hrest 0 (Nat.succ_pos _)
  exact ⟨stop, frameAt?_eq_some.2 ⟨rfl, hi, hop, hstop⟩⟩

theorem next (h : LinkedTo body all pc frames spans) (hi : body[pc]? = some i) :
    ∃ frames' spans', LinkedTo body all (pc + 1) frames' spans' := by
  have hrest := h.rest
  rw [drop_eq_cons hi] at hrest
  obtain ⟨hop, hc⟩ | ⟨hop, hc⟩ | ⟨start, outer, hop, rfl, hc⟩ |
    ⟨o, outer, later, hop, rfl, hc, rfl⟩ := spansFrom_cases hrest
  · refine ⟨_, _, hc, ?_, h.found⟩
    rw [enclosing_inner hi (by rw [Op.isInner, hop, Bool.true_or])]
    exact h.opens
  · -- a frame is opened here, and this is its first position
    obtain ⟨stop, hf⟩ := h.exists_frameAt? hi hop
    have henclosing := enclosing_open hf
    refine ⟨_, _, hc, ?_, h.found⟩
    rw [henclosing]
    refine .cons ?_ h.opens
    intro k hk
    obtain rfl := mem_singleton.1 hk
    rw [henclosing]
    rfl
  · -- the `else` is a further position of the frame
    have henclosing := enclosing_inner hi (by rw [hop]; rfl)
    refine ⟨_, _, hc, ?_, h.found⟩
    have hopens := h.opens
    rw [henclosing]
    cases hframes : enclosing body pc with
    | nil =>
      rw [hframes] at hopens
      cases hopens
    | cons f fs =>
      rw [hframes] at hopens
      obtain ⟨hhead, htail⟩ := forall₂_cons.1 hopens
      refine .cons ?_ htail
      intro k hk
      rcases mem_cons.1 hk with rfl | hk
      · exact hhead _ mem_cons_self
      · obtain rfl := mem_singleton.1 hk
        rw [henclosing, hframes]
        rfl
  · -- the innermost frame ends: its spans are found, and the other frames stay open
    obtain ⟨henclosing, hstop⟩ := (stops body pc).enclosing_end hi hop
    have hopens := h.opens
    cases hframes : enclosing body pc with
    | nil =>
      rw [hframes] at hopens
      cases hopens
    | cons f fs =>
      rw [hframes] at hopens hstop henclosing
      obtain ⟨hhead, htail⟩ := forall₂_cons.1 hopens
      have hstop : f.stop = pc := hstop f rfl
      refine ⟨_, _, hc, henclosing ▸ htail, fun x hx => ?_⟩
      rcases h.found x hx with hx | hx
      · rcases mem_append.1 hx with hx | hx
        · right
          rcases mem_cons.1 hx with rfl | hx
          · refine ⟨f, hhead _ mem_cons_self, hstop, fun e he => ?_⟩
            exact hhead e (mem_cons_of_mem _ (Option.mem_toList.2 he))
          · obtain ⟨e, he, rfl⟩ := by simpa using hx
            exact ⟨f, hhead e (mem_cons_of_mem _ (Option.mem_toList.2 he)), hstop, nofun⟩
        · exact .inl hx
      · exact .inr hx

end LinkedTo

theorem linkedTo (h : spansFrom 0 [] body = .ok all) : ∀ pc ≤ body.length,
    ∃ frames spans, LinkedTo body all pc frames spans
  | 0, _ => ⟨_, _, .start h⟩
  | pc + 1, hpc => by
    obtain ⟨frames, spans, hto⟩ := linkedTo h pc (Nat.le_of_succ_le hpc)
    exact hto.next (getElem?_eq_getElem hpc)

variable {links : Links} {k : Nat}

theorem exists_linkedTo (h : link body = .ok links) (hi : body[k]? = some i) :
    ∃ all frames spans, LinkedTo body all k frames spans := by
  obtain ⟨all, hall, -⟩ := bind_ok h
  exact ⟨all, linkedTo hall k (Nat.le_of_lt (List.getElem?_eq_some_iff.1 hi).1)⟩

/-- Links are the spans of frames. -/
theorem spanOf_link {span} (h : link body = .ok links) (hk : links.at? k = some span) :
    SpanOf body (k, span) := by
  obtain ⟨all, hall, hmem⟩ := mem_spans_of_link h hk
  obtain ⟨frames, spans, hto⟩ := linkedTo hall body.length (Nat.le_refl _)
  have hrest := hto.rest
  rw [drop_length] at hrest
  cases frames with
  | cons => cases hrest
  | nil =>
    cases hrest
    exact (hto.found _ hmem).resolve_left not_mem_nil

theorem exists_frameAt?_of_link (h : link body = .ok links) (hi : body[k]? = some i)
    (hop : i.op.opensFrame = true) : ∃ stop, frameAt? body k = some ⟨i, k, stop⟩ := by
  obtain ⟨all, frames, spans, hto⟩ := exists_linkedTo h hi
  exact hto.exists_frameAt? hi hop

theorem enclosing_ne_nil (h : link body = .ok links) (hi : body[k]? = some i)
    (hop : i.op = .elseArm ∨ i.op = .endFrame) : enclosing body k ≠ [] := by
  obtain ⟨all, frames, spans, hto⟩ := exists_linkedTo h hi
  have hrest := hto.rest
  rw [drop_eq_cons hi] at hrest
  intro hnil
  obtain rfl := forall₂_nil_right_iff.1 (hnil ▸ hto.opens)
  obtain ⟨hflat, -⟩ | ⟨hopen, -⟩ | ⟨_, _, -, hframes, -⟩ | ⟨_, _, _, -, hframes, -⟩ :=
    spansFrom_cases hrest
  · rcases hop with hop | hop <;> rw [hop] at hflat <;> cases hflat
  · rcases hop with hop | hop <;> rw [hop] at hopen <;> cases hopen
  · cases hframes
  · cases hframes

end

end WatScript
