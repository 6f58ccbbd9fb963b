import NotebookTidy.Proofs.Path.Components

/-! Paths in the order of their components. The order is total, and the paths that it does not tell
apart are those with the same components, however they are spelled. -/
namespace NotebookTidy

theorem compareTotal {α : Type} (cmp : α → α → Ordering) [Std.OrientedCmp cmp] (a b : α) :
    (cmp a b).isLE || (cmp b a).isLE := by
  have swapped : (cmp a b).isGE = (cmp b a).isLE := Std.OrientedCmp.isGE_eq_isLE
  rw [← swapped]
  cases cmp a b <;> rfl

namespace Component

/-- What a component is compared by: its kind first, then the characters of a name. -/
def standing : Component → Nat × String
  | .root => (0, "")
  | .here => (1, "")
  | .up => (2, "")
  | .name s => (3, s)

theorem orderStanding :
    order = compareLex (compareOn (·.standing.1)) (compareOn (·.standing.2)) := by
  funext a b
  cases a <;> cases b <;> rfl

instance : Std.TransCmp order := orderStanding ▸ inferInstance

instance : Std.LawfulEqCmp order where
  compare_self := Std.ReflCmp.compare_self
  eq_of_compare {a b} same := by
    rw [orderStanding, compareLex_eq_eq] at same
    have kind : a.standing.1 = b.standing.1 := Std.LawfulEqOrd.eq_of_compare same.1
    have text : a.standing.2 = b.standing.2 := Std.LawfulEqOrd.eq_of_compare same.2
    cases a <;> cases b <;> first | rfl | cases kind
    exact congrArg Component.name text

end Component

namespace Path

theorem sameIff {a b : Path} : a.same b = true ↔ a.components = b.components := decide_eq_true_iff

theorem orderComponents :
    order = fun a b => List.compareLex Component.order a.components b.components := by
  funext a b
  unfold order
  generalize a.components = xs
  generalize b.components = ys
  induction xs generalizing ys with
  | nil => cases ys <;> rfl
  | cons x xs ih =>
    cases ys with
    | nil => rfl
    | cons y ys => rw [order.go, ih, List.compareLex_cons_cons]

instance : Std.TransCmp order where
  eq_swap := by
    rw [orderComponents]
    exact Std.OrientedCmp.eq_swap
  isLE_trans := by
    rw [orderComponents]
    exact Std.TransCmp.isLE_trans

theorem orderSame {a b : Path} : a.order b = .eq ↔ a.components = b.components := by
  rw [orderComponents]
  exact Std.LawfulEqCmp.compare_eq_iff_eq

end Path
end NotebookTidy
