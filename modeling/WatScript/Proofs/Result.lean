import Mathlib.Data.List.Forall2

/-!
# Results that may fail

Reading is written with `Except`. The lemmas here take a computation that succeeded apart into the
computations it was put together from (`bind_ok`, `map_ok`, `mapM_cons_ok`), and say of a computation that
may fail which results and which failures it can have (`Ends`), and of two computations that they end
alike (`Agree`).
-/

namespace WatScript

open List

section
variable {ε α β : Type}

theorem bind_ok {x : Except ε α} {f : α → Except ε β} {b : β} (h : x >>= f = .ok b) :
    ∃ a, x = .ok a ∧ f a = .ok b := by
  cases x with
  | error e => cases h
  | ok a => exact ⟨a, rfl, h⟩

theorem map_ok {x : Except ε α} {f : α → β} {b : β} (h : x.map f = .ok b) :
    ∃ a, x = .ok a ∧ f a = b := by
  cases x with
  | error e => cases h
  | ok a => exact ⟨a, rfl, Except.ok.inj h⟩

theorem except_map_map {γ} (x : Except ε α) (f : α → β) (g : β → γ) :
    (x.map f).map g = x.map fun a => g (f a) := by
  cases x <;> rfl

theorem mapError_ok {ε' : Type} {x : Except ε α} {f : ε → ε'} {a : α} (h : x.mapError f = .ok a) :
    x = .ok a := by
  cases x with
  | error e => cases h
  | ok b => exact congrArg Except.ok (Except.ok.inj h)

theorem toOption_ok {x : Except ε α} {a : α} (h : x.toOption = some a) : x = .ok a := by
  cases x with
  | error e => cases h
  | ok b => exact congrArg Except.ok (Option.some.inj h)

theorem mapM_cons_ok {f : α → Except ε β} {x : α} {xs : List α} {ys : List β}
    (h : (x :: xs).mapM f = .ok ys) : ∃ y zs, f x = .ok y ∧ xs.mapM f = .ok zs ∧ ys = y :: zs := by
  rw [mapM_cons] at h
  obtain ⟨y, hy, h⟩ := bind_ok h
  obtain ⟨zs, hzs, h⟩ := bind_ok h
  cases h
  exact ⟨y, zs, hy, hzs, rfl⟩

theorem mapM_eq_self {f : α → Except ε α} :
    ∀ {xs : List α}, (∀ x ∈ xs, f x = .ok x) → xs.mapM f = .ok xs
  | [], _ => rfl
  | x :: xs, h => by
    obtain ⟨hx, hxs⟩ := forall_mem_cons.1 h
    rw [mapM_cons, hx, mapM_eq_self hxs]
    rfl

/-- A computation that ends with a result in `P` or with a failure in `E`. -/
def Ends (P : α → Prop) (E : ε → Prop) : Except ε α → Prop
  | .ok a => P a
  | .error e => E e

variable {P : α → Prop} {Q : β → Prop} {E : ε → Prop}

theorem Ends.bind {x f} (hx : Ends P E x)
    (hf : ∀ a, P a → Ends Q E (f a)) : Ends Q E (x >>= f) := by
  cases x with
  | error e => exact hx
  | ok a => exact hf a hx

theorem Ends.map {x f} (hx : Ends P E x) (hf : ∀ a, P a → Q (f a)) : Ends Q E (x.map f) := by
  cases x with
  | error e => exact hx
  | ok a => exact hf a hx

theorem Ends.mono {P' x} (hx : Ends P E x) (h : ∀ a, P a → P' a) : Ends P' E x := by
  cases x with
  | error e => exact hx
  | ok a => exact h a hx

theorem Ends.with_eq {x} (hx : Ends P E x) : Ends (fun a => x = .ok a ∧ P a) E x := by
  cases x with
  | error e => exact hx
  | ok a => exact ⟨rfl, hx⟩

theorem Ends.mapM_forall₂ {R : α → β → Prop} {f : α → Except ε β} :
    ∀ {xs : List α}, (∀ x ∈ xs, Ends (R x) E (f x)) → Ends (Forall₂ R xs) E (xs.mapM f)
  | [], _ => .nil
  | x :: xs, h => by
    rw [mapM_cons]
    refine (h x mem_cons_self).bind fun y hy => ?_
    refine (Ends.mapM_forall₂ fun z hz => h z (mem_cons_of_mem _ hz)).bind fun ys hys => ?_
    exact .cons hy hys

theorem Ends.mapM_zip {R : α → β → Prop} {f : α → Except ε β} {xs : List α}
    (h : ∀ x ∈ xs, Ends (R x) E (f x)) :
    Ends (fun ys => xs.length = ys.length ∧ ∀ x y, (x, y) ∈ xs.zip ys → R x y) E (xs.mapM f) :=
  (Ends.mapM_forall₂ h).mono fun _ hr =>
    ⟨hr.length_eq, fun _ _ hz => (forall₂_iff_zip.1 hr).2 hz⟩

theorem append_eq_split {l l' before after : List α} {a : α}
    (h : l ++ l' = before ++ a :: after) : (∃ mid, l = before ++ a :: mid) ∨
      ∃ mid, before = l ++ mid ∧ l' = mid ++ a :: after := by
  rcases append_eq_append_iff.1 h with ⟨mid, hleft, hright⟩ | ⟨mid, hleft, hright⟩
  · exact .inr ⟨mid, hleft, hright⟩
  · cases mid with
    | nil => exact .inr ⟨[], by simpa using hleft.symm, hright.symm⟩
    | cons b mid =>
      obtain ⟨rfl, -⟩ := List.cons.inj hright
      exact .inl ⟨mid, hleft⟩

theorem exists_zip_of_mem {xs : List α} {ys : List β} (hlen : xs.length = ys.length) {y : β}
    (hy : y ∈ ys) : ∃ x, (x, y) ∈ xs.zip ys := by
  obtain ⟨i, hi, rfl⟩ := mem_iff_getElem.1 hy
  exact ⟨xs[i], mem_iff_getElem.2 ⟨i, by simp; omega, by simp⟩⟩

theorem forall_of_forall₂ {xs : List α} {ys : List β} (h : Forall₂ (fun _ y => Q y) xs ys) :
    ∀ y ∈ ys, Q y := by
  induction h with
  | nil => simp
  | cons hy _ ih => exact forall_mem_cons.2 ⟨hy, ih⟩

theorem Ends.mapM {f : α → Except ε β} {xs : List α} (h : ∀ x ∈ xs, Ends Q E (f x)) :
    Ends (fun ys => ∀ y ∈ ys, Q y) E (xs.mapM f) :=
  (Ends.mapM_forall₂ h).mono fun _ => forall_of_forall₂

theorem Ends.ne_error {x} (h : Ends P E x) {e} (he : ¬ E e) : x ≠ .error e := by
  rintro rfl
  exact he h

end

/-! ## Two computations -/

section
variable {ε α α' β β' : Type}

/-- Two computations that end alike: with results that `S` relates, or with the same failure in `E`. -/
inductive Agree (E : ε → Prop) (S : α → α' → Prop) : Except ε α → Except ε α' → Prop
  | ok {a a'} : S a a' → Agree E S (.ok a) (.ok a')
  | error {e} : E e → Agree E S (.error e) (.error e)

variable {E : ε → Prop} {S : α → α' → Prop} {Q : β → β' → Prop}
  {x : Except ε α} {x' : Except ε α'}

theorem Agree.bind {f f'} (hx : Agree E S x x')
    (hf : ∀ a a', S a a' → Agree E Q (f a) (f' a')) : Agree E Q (x >>= f) (x' >>= f') := by
  cases hx with
  | ok h => exact hf _ _ h
  | error h => exact .error h

theorem Agree.map {f f'} (hx : Agree E S x x')
    (hf : ∀ a a', S a a' → Q (f a) (f' a')) : Agree E Q (x.map f) (x'.map f') := by
  cases hx with
  | ok h => exact .ok (hf _ _ h)
  | error h => exact .error h

theorem Agree.of_map {f f'} (h : Agree E Q (x.map f) (x'.map f')) :
    Agree E (fun a a' => Q (f a) (f' a')) x x' := by
  cases x <;> cases x' <;> cases h
  · exact .error ‹_›
  · exact .ok ‹_›

theorem Agree.mono {S'} (hx : Agree E S x x') (h : ∀ a a', S a a' → S' a a') : Agree E S' x x' := by
  cases hx with
  | ok ha => exact .ok (h _ _ ha)
  | error he => exact .error he

theorem Agree.with_eq (hx : Agree E S x x') :
    Agree E (fun a a' => x = .ok a ∧ x' = .ok a' ∧ S a a') x x' := by
  cases hx with
  | ok h => exact .ok ⟨rfl, rfl, h⟩
  | error h => exact .error h

theorem Agree.eq {y y' : Except ε α} (h : Agree E (· = ·) y y') : y = y' := by
  cases h with
  | ok h => rw [h]
  | error => rfl

theorem Agree.exists_ok {a} (h : Agree E S (.ok a) x') : ∃ a', x' = .ok a' ∧ S a a' := by
  cases h with
  | ok h => exact ⟨_, rfl, h⟩

theorem Agree.left (hx : Agree E S x x') : Ends (fun _ => True) E x := by
  cases hx with
  | ok => trivial
  | error h => exact h

theorem Agree.mapM {f f'} : ∀ {xs xs'}, Forall₂ S xs xs' →
      (∀ a ∈ xs, ∀ a' ∈ xs', S a a' → Agree E Q (f a) (f' a')) →
      Agree E (Forall₂ Q) (xs.mapM f) (xs'.mapM f')
  | _, _, .nil, _ => .ok .nil
  | _, _, .cons ha h, hf => by
    rw [mapM_cons, mapM_cons]
    refine (hf _ mem_cons_self _ mem_cons_self ha).bind fun b b' hb => ?_
    refine (Agree.mapM h fun c hc c' hc' =>
      hf c (mem_cons_of_mem _ hc) c' (mem_cons_of_mem _ hc')).bind fun bs bs' hbs => ?_
    exact .ok (.cons hb hbs)

end

end WatScript
