import WatScript.Proofs.Result
import WatScript.Wat.Op

/-!
# Marked instructions

The instructions of one operation in a body, each with the thing it was emitted for and the code in front
of it that belongs to it. Things and instructions are in the same order, so the position of such an
instruction in a body says what it was emitted for.
-/

namespace WatScript

open List

/-- The number of instructions with an operation. -/
def countOp (op : Op) (code : List Instr) : Nat := code.countP (·.op == op)

theorem countOp_append (op : Op) (code code' : List Instr) :
    countOp op (code ++ code') = countOp op code + countOp op code' := countP_append

theorem countOp_eq_zero {op code} (h : ∀ i ∈ code, i.op ≠ op) : countOp op code = 0 := by
  rw [countOp, countP_eq_zero]
  simpa using h

/-- The instructions with an operation are those of the things, in order. Each of them stands right
behind code that fits its thing. -/
structure Marks {α : Type} (op : Op) (Fits : α → List Instr → Instr → Prop) (code : List Instr)
    (things : List α) : Prop where
  count : countOp op code = things.length
  placed : ∀ before i after, code = before ++ i :: after → i.op = op → ∃ a front own,
    things[countOp op before]? = some a ∧ before = front ++ own ∧ Fits a own i

namespace Marks
variable {α : Type} {op : Op} {Fits : α → List Instr → Instr → Prop} {code code' : List Instr}
  {things things' : List α} {a : α} {i : Instr}

theorem none (h : ∀ i ∈ code, i.op ≠ op) : Marks op Fits code [] := by
  refine ⟨countOp_eq_zero h, fun before i after hsplit hi => absurd hi (h i ?_)⟩
  exact hsplit ▸ mem_append_right before mem_cons_self

theorem nil : Marks op Fits [] [] := none (forall_mem_nil _)

theorem append (h : Marks op Fits code things) (h' : Marks op Fits code' things') :
    Marks op Fits (code ++ code') (things ++ things') := by
  refine ⟨?_, fun before i after hsplit hi => ?_⟩
  · rw [countOp_append, length_append, h.count, h'.count]
  · rcases append_eq_split hsplit with ⟨mid, hcode⟩ | ⟨mid, rfl, hcode⟩
    · obtain ⟨a, front, own, ha, hfits⟩ := h.placed before i mid hcode hi
      refine ⟨a, front, own, ?_, hfits⟩
      rw [getElem?_append_left (List.getElem?_eq_some_iff.1 ha).1, ha]
    · obtain ⟨a, front, own, ha, rfl, hfits⟩ := h'.placed mid i after hcode hi
      refine ⟨a, code ++ front, own, ?_, (append_assoc ..).symm, hfits⟩
      rwa [countOp_append, h.count, getElem?_append_right (Nat.le_add_right ..),
        Nat.add_sub_cancel_left]

theorem quiet (hi : (i.op == op) = false) (h : Marks op Fits code things) :
    Marks op Fits (i :: code) things :=
  append (none (forall_mem_singleton.2 (beq_eq_false_iff_ne.1 hi))) h

theorem trail (h : Marks op Fits code things) (h' : Marks op Fits code' []) :
    Marks op Fits (code ++ code') things := append_nil things ▸ h.append h'

/-- One thing more, which the code so far is emitted for. -/
theorem mark (hi : i.op = op) (hfits : Fits a code i) (h : Marks op Fits code things) :
    Marks op Fits (code ++ [i]) (things ++ [a]) := by
  refine ⟨?_, fun before j after hsplit hj => ?_⟩
  · rw [countOp_append, length_append, h.count]
    simp [countOp, hi]
  · rcases append_eq_split hsplit with ⟨mid, hcode⟩ | ⟨mid, rfl, hcode⟩
    · obtain ⟨b, front, own, hb, hrest⟩ := h.placed before j mid hcode hj
      refine ⟨b, front, own, ?_, hrest⟩
      rw [getElem?_append_left (List.getElem?_eq_some_iff.1 hb).1, hb]
    · cases mid with
      | cons j mid => simp at hcode
      | nil =>
        obtain ⟨rfl, -⟩ := List.cons.inj hcode
        refine ⟨a, [], code, ?_, append_nil code, hfits⟩
        rw [append_nil, h.count, getElem?_append_right (Nat.le_refl _), Nat.sub_self]
        rfl

end Marks

end WatScript
