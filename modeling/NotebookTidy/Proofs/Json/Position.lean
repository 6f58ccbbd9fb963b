import NotebookTidy.Proofs.Json.Legible

/-! Positions in a JSON value, and what two values have to differ in when a part of one was
replaced. Values that show the same at every position are alike; a position is exempt together with
all that lies below it. -/
namespace NotebookTidy.Json

inductive Step where
  | member (name : String)
  | item (index : Nat)
  deriving DecidableEq, Repr

namespace Value

def step? (v : Value) : Step → Option Value
  | .member name => v.get? name
  | .item i => v.array?.bind (·[i]?)

def at? (v : Value) : List Step → Option Value
  | [] => some v
  | s :: rest => (v.step? s).bind (·.at? rest)

/-- What is seen of a value without a step into it. -/
def surface : Value → Value
  | .array _ => .array .nil
  | .object _ => .object .nil
  | v => v

def shown? (v : Value) (path : List Step) : Option Value := (v.at? path).map surface

theorem shownStep (v : Value) (s : Step) (rest : List Step) :
    v.shown? (s :: rest) = (v.step? s).bind (·.shown? rest) := by
  rw [shown?, at?, Option.map_bind]
  rfl

def SameBut (exempt : List Step → Prop) (v w : Value) : Prop :=
  ∀ path, ¬ exempt path → v.shown? path = w.shown? path

variable {exempt : List Step → Prop}

theorem insertSame {name : String} {new : Value} {ms : Members}
    (inner : ∀ rest, ¬ exempt (.member name :: rest) →
      new.shown? rest = (ms.get? name).bind (·.shown? rest)) :
    SameBut exempt (.object (ms.insert name new)) (.object ms) := by
  intro path allowed
  match path with
  | [] => rfl
  | .item i :: rest => rfl
  | .member key :: rest =>
    rw [shownStep, shownStep, step?, step?, get?, get?, Members.getInsert]
    split
    · rename_i here
      subst here
      exact inner rest allowed
    · rfl

theorem itemsSame {change : Value → Value} {vs : List Value}
    (inner : ∀ i v, vs[i]? = some v → ∀ rest, ¬ exempt (.item i :: rest) →
      (change v).shown? rest = v.shown? rest) :
    SameBut exempt (.array (.ofList (vs.map change))) (.array (.ofList vs)) := by
  intro path allowed
  match path with
  | [] => rfl
  | .member key :: rest => rfl
  | .item i :: rest =>
    rw [shownStep, shownStep, step?, step?, array?, array?, Items.toListOfList,
      Items.toListOfList, Option.bind_some, Option.bind_some, List.getElem?_map]
    cases found : vs[i]? with
    | none => rfl
    | some v => exact inner i v found rest allowed

/-! Values that show the same everywhere -/

variable {fits : Number → Prop}

/-- Of legible values no other shows the same. -/
def Determined (fits : Number → Prop) (v : Value) : Prop :=
  ∀ w depth, w.Legible fits depth → (∀ path, v.shown? path = w.shown? path) → v = w

theorem determinedOption {v w : Option Value} (determined : ∀ a ∈ v, a.Determined fits)
    (legible : ∀ b ∈ w, ∃ depth, b.Legible fits depth)
    (same : ∀ path, v.bind (·.shown? path) = w.bind (·.shown? path)) : v = w := by
  cases v with
  | none =>
    cases w with
    | none => rfl
    | some b => cases same []
  | some a =>
    cases w with
    | none => cases same []
    | some b =>
      obtain ⟨depth, legible⟩ := legible b rfl
      rw [determined a rfl b depth legible same]

theorem arrayDetermined {vs : Items} (determined : ∀ v ∈ vs.toList, v.Determined fits) :
    (Value.array vs).Determined fits := by
  intro w depth legible same
  cases w with
  | array ws =>
    obtain ⟨-, all⟩ := legible
    have lists : vs.toList = ws.toList := by
      refine List.ext_getElem? fun i => determinedOption
        (fun a mem => determined a (List.mem_of_getElem? mem))
        (fun b mem => ⟨_, (itemsLegible _ ws).mp all b (List.mem_of_getElem? mem)⟩) fun rest => ?_
      have step := same (.item i :: rest)
      rwa [shownStep, shownStep] at step
    rw [← itemsOfList vs, lists, itemsOfList]
  | _ => cases same []

theorem objectDetermined {ms : Members} (sorted : Keyed.Sorted ms.toList)
    (determined : ∀ m ∈ ms.toList, m.2.Determined fits) : (Value.object ms).Determined fits := by
  intro w depth legible same
  cases w with
  | object ns =>
    have members : ms.toList = ns.toList := by
      refine Keyed.sortedExt sorted legible.2.1 fun key => ?_
      rw [← Members.getToList, ← Members.getToList]
      refine determinedOption (fun a mem => determined (key, a) (Members.getMem mem))
        (fun b mem => ⟨_, getLegible legible mem⟩) fun rest => ?_
      have step := same (.member key :: rest)
      rwa [shownStep, shownStep] at step
    rw [Members.toListInjective ms ns members]
  | _ => cases same []

mutual
theorem valueDetermined {depth : Nat} : (v : Value) → v.Legible fits depth → v.Determined fits
  | .null, _ => fun w _ _ same => by
    cases w with
    | null => rfl
    | _ => cases same []
  | .bool _, _ => fun w _ _ same => by
    cases w with
    | bool _ => cases same []; rfl
    | _ => cases same []
  | .number _, _ => fun w _ _ same => by
    cases w with
    | number _ => cases same []; rfl
    | _ => cases same []
  | .string _, _ => fun w _ _ same => by
    cases w with
    | string _ => cases same []; rfl
    | _ => cases same []
  | .array vs, legible => arrayDetermined (itemsDetermined vs legible.2)
  | .object ms, legible => objectDetermined legible.2.1 (membersDetermined ms legible.2.2)
theorem itemsDetermined {depth : Nat} : (vs : Items) → vs.Legible fits depth →
    ∀ v ∈ vs.toList, v.Determined fits
  | .nil, _ => by simp [Items.toList]
  | .cons v rest, ⟨first, others⟩ =>
    List.forall_mem_cons.mpr ⟨valueDetermined v first, itemsDetermined rest others⟩
theorem membersDetermined {depth : Nat} : (ms : Members) → ms.Legible fits depth →
    ∀ m ∈ ms.toList, m.2.Determined fits
  | .nil, _ => by simp [Members.toList]
  | .cons k v rest, ⟨first, others⟩ =>
    List.forall_mem_cons.mpr ⟨valueDetermined v first, membersDetermined rest others⟩
end

theorem atAppend (v : Value) (path rest : List Step) :
    v.at? (path ++ rest) = (v.at? path).bind (·.at? rest) := by
  induction path generalizing v with
  | nil => rfl
  | cons s more ih =>
    rw [List.cons_append, at?, at?, Option.bind_assoc]
    exact congrArg _ (funext ih)

theorem stepLegible {v w : Value} {depth : Nat} {s : Step} (legible : v.Legible fits depth)
    (leads : v.step? s = some w) : w.Legible fits (depth - 1) := by
  cases s with
  | member name =>
    cases v with
    | object ms => exact getLegible legible leads
    | _ => cases leads
  | item i =>
    cases v with
    | array vs => exact (itemsLegible _ vs).mp legible.2 w (List.mem_of_getElem? leads)
    | _ => cases leads

theorem atLegible {v w : Value} {depth : Nat} {path : List Step} (legible : v.Legible fits depth)
    (leads : v.at? path = some w) : ∃ less, w.Legible fits less := by
  induction path generalizing v depth with
  | nil =>
    cases leads
    exact ⟨depth, legible⟩
  | cons s rest ih =>
    obtain ⟨inner, step, later⟩ := Option.bind_eq_some_iff.mp leads
    exact ih (stepLegible legible step) later

theorem sameParts {v w : Value} {depth : Nat} (same : SameBut exempt v w)
    (left : v.Legible fits depth) (right : w.Legible fits depth) {path : List Step}
    (free : ∀ rest, ¬ exempt (path ++ rest)) : v.at? path = w.at? path := by
  refine determinedOption (fun a leads => ?_) (fun b leads => atLegible right leads) fun rest => ?_
  · obtain ⟨less, legible⟩ := atLegible left leads
    exact valueDetermined a legible
  · have shown := same (path ++ rest) (free rest)
    rwa [shown?, shown?, atAppend, atAppend, Option.map_bind, Option.map_bind] at shown

end Value
end NotebookTidy.Json
