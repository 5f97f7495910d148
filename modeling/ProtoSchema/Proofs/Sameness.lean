import ProtoSchema.Node.Same

/-!
# Sameness of trees is equality of normal forms

Two trees are compared node by node, without the texts if either node is a root. The outcome is that
of comparing normal forms: the trees with the ASCII letters of their texts lowered and with no text
in their roots, wherever these stand. So sameness is an equivalence, and a child more on either side
keeps it if and only if these children are the same.

* `Node.same_iff`, `Node.sameAll_iff`: the comparison of trees and of lists of trees.
* `Node.same_is_equality_of_normal_forms`: what follows for all trees.
-/

namespace ProtoSchema.Node

variable {a b child child' : Node}

/-- Texts that count are compared up to case, those of roots do not count. -/
theorem sameText_iff_of_kind (kind : Kind) (value value' : String) :
    (kind == .root || sameText value value') = true ↔
      (if kind = .root then "" else foldCase value) =
        if kind = .root then "" else foldCase value' := by
  by_cases hroot : kind = .root
  · simp [hroot]
  · simp [hroot, sameText_iff]

mutual

/-- **Trees are the same if their normal forms are equal**, and only then. -/
theorem same_iff : (a b : Node) → (a.same b = true ↔ a.normalize = b.normalize)
  | ⟨kind, value, children⟩, ⟨kind', value', children'⟩ => by
    rw [same, normalize, normalize, mk.injEq, Bool.and_eq_true, Bool.and_eq_true, beq_iff_eq,
      sameAll_iff children children', sameText_iff_of_kind, and_assoc]
    -- the test for a root looks at one kind only, which is the other one as well
    refine and_congr_right fun hkind => ?_
    rw [hkind]

theorem sameAll_iff : (as bs : List Node) →
    (sameAll as bs = true ↔ normalizeAll as = normalizeAll bs)
  | [], [] => by simp [sameAll]
  | [], _ :: _ => by simp [sameAll, normalizeAll]
  | _ :: _, [] => by simp [sameAll, normalizeAll]
  | a :: as, b :: bs => by
    rw [sameAll, normalizeAll, normalizeAll, List.cons.injEq, Bool.and_eq_true, same_iff a b,
      sameAll_iff as bs]

end

theorem same_equivalence : Equivalence fun a b : Node => a.same b = true where
  refl a := (same_iff a a).2 rfl
  symm := by
    intro a b h
    exact (same_iff b a).2 ((same_iff a b).1 h).symm
  trans := by
    intro a b c hab hbc
    exact (same_iff a c).2 (((same_iff a b).1 hab).trans ((same_iff b c).1 hbc))

theorem normalizeAll_append (first second : List Node) :
    normalizeAll (first ++ second) = normalizeAll first ++ normalizeAll second := by
  induction first with
  | nil => rw [normalizeAll]; rfl
  | cons node rest ih => rw [List.cons_append, normalizeAll, normalizeAll, ih, List.cons_append]

theorem normalize_push (node child : Node) :
    (node.push child).normalize = node.normalize.push child.normalize := by
  obtain ⟨kind, value, children⟩ := node
  simp only [push, append, normalize, normalizeAll_append, normalizeAll]

theorem push_inj : a.push child = b.push child' ↔ a = b ∧ child = child' := by
  obtain ⟨kind, value, children⟩ := a
  obtain ⟨kind', value', children'⟩ := b
  simp only [push, append, mk.injEq]
  constructor
  · rintro ⟨hkind, hvalue, hchildren⟩
    obtain ⟨hbefore, hlast⟩ := List.append_inj' hchildren rfl
    exact ⟨⟨hkind, hvalue, hbefore⟩, List.singleton_inj.1 hlast⟩
  · rintro ⟨⟨hkind, hvalue, hchildren⟩, rfl⟩
    exact ⟨hkind, hvalue, by rw [hchildren]⟩

/-- **Sameness of trees is equality of normal forms.** It is therefore reflexive, symmetric and
transitive, and trees with one more child each are the same exactly if they were the same before and
the new children are. -/
theorem same_is_equality_of_normal_forms :
    (∀ a b : Node, a.same b = true ↔ a.normalize = b.normalize) ∧
      (Equivalence fun a b : Node => a.same b = true) ∧
      ∀ a b child child' : Node,
        (a.push child).same (b.push child') = true ↔
          a.same b = true ∧ child.same child' = true := by
  refine ⟨same_iff, same_equivalence, ?_⟩
  intro a b child child'
  rw [same_iff, same_iff, same_iff, normalize_push, normalize_push, push_inj]

end ProtoSchema.Node
