import WatScript.Proofs.Evaluation
import WatScript.Proofs.Lowered

/-!
# Symbols of lowered programs

The tables of symbols are strictly increasing (`sortedUnique_pairwise`), so they hold each name once. They
hold the words that a program mentions (`Symbols.mem_locals`, `Symbols.mem_calls`).
-/

namespace WatScript

open List Atom

/-! ## Increasing lists -/

theorem mem_insertSorted {s x} : ∀ {l}, x ∈ insertSorted s l ↔ x = s ∨ x ∈ l
  | [] => mem_singleton.trans (by simp)
  | t :: rest => by
    rw [insertSorted]
    split
    · exact mem_cons
    split
    · rename_i hst
      rw [beq_iff_eq.1 hst, mem_cons]
      exact ⟨.inr, fun h => h.elim .inl id⟩
    · rw [mem_cons, mem_insertSorted, mem_cons]
      exact or_left_comm

theorem insertSorted_pairwise {s} : ∀ {l}, l.Pairwise (· < ·) → (insertSorted s l).Pairwise (· < ·)
  | [], _ => pairwise_singleton ..
  | t :: rest, h => by
    obtain ⟨ht, hrest⟩ := pairwise_cons.1 h
    rw [insertSorted]
    split
    · rename_i hst
      refine pairwise_cons.2 ⟨fun x hx => ?_, h⟩
      obtain rfl | hx := mem_cons.1 hx
      · exact hst
      · exact String.lt_trans hst (ht x hx)
    split
    · exact h
    · rename_i hlt hne
      have hts : t < s :=
        Classical.byContradiction fun hts => hne (beq_iff_eq.2 (String.le_antisymm hts hlt))
      refine pairwise_cons.2 ⟨fun x hx => ?_, insertSorted_pairwise hrest⟩
      obtain rfl | hx := mem_insertSorted.1 hx
      · exact hts
      · exact ht x hx

theorem mem_sortedUnique {x} : ∀ {xs}, x ∈ sortedUnique xs ↔ x ∈ xs
  | [] => Iff.rfl
  | y :: xs => by
    rw [sortedUnique, foldr_cons, mem_insertSorted, ← sortedUnique, mem_sortedUnique,
      mem_cons]

theorem sortedUnique_pairwise : ∀ xs : List String, (sortedUnique xs).Pairwise (· < ·)
  | [] => .nil
  | _ :: xs => insertSorted_pairwise (sortedUnique_pairwise xs)

theorem sortedUnique_nodup (xs : List String) : (sortedUnique xs).Nodup := by
  refine List.Pairwise.imp ?_ (sortedUnique_pairwise xs)
  rintro s _ hlt rfl
  exact String.lt_irrefl s hlt

namespace Symbols
variable {run : List Atom} {name : String}

theorem mem_locals : name ∈ (ofRun run).locals ↔
    ⟨name, false⟩ ∈ mentionsAll run ∧ isNameable name = true := by
  simp only [ofRun, ofMentions, mem_sortedUnique, mem_filter, mem_map]
  refine and_congr_left fun _ => ⟨?_, fun h => ⟨_, ⟨h, rfl⟩, rfl⟩⟩
  rintro ⟨⟨word, isCallee⟩, ⟨h, hc⟩, rfl⟩
  cases isCallee with
  | false => exact h
  | true => cases hc

theorem mem_calls : name ∈ (ofRun run).calls ↔ ⟨name, true⟩ ∈ mentionsAll run := by
  simp only [ofRun, ofMentions, mem_sortedUnique, mem_filter, mem_map]
  refine ⟨?_, fun h => ⟨_, ⟨h, rfl⟩, rfl⟩⟩
  rintro ⟨⟨word, isCallee⟩, ⟨h, hc⟩, rfl⟩
  cases isCallee with
  | false => cases hc
  | true => exact h

end Symbols

end WatScript
