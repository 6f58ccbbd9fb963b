import Mathlib.Data.String.Basic

/-! Entries in the strict order of their keys. Configuration tables and JSON objects both keep them
so; what they put in and look up is told here once, on the list of their entries. -/
namespace NotebookTidy.Keyed

variable {α : Type}

def Sorted (entries : List (String × α)) : Prop := (entries.map Prod.fst).Pairwise (· < ·)

def insert (key : String) (value : α) : List (String × α) → List (String × α)
  | [] => [(key, value)]
  | (k, v) :: rest =>
    if key < k then (key, value) :: (k, v) :: rest
    else if k = key then (key, value) :: rest
    else (k, v) :: insert key value rest

theorem sortedNil : Sorted ([] : List (String × α)) := .nil

theorem sortedCons {k : String} {v : α} {rest : List (String × α)} :
    Sorted ((k, v) :: rest) ↔ (∀ key ∈ rest.map Prod.fst, k < key) ∧ Sorted rest :=
  List.pairwise_cons

theorem memInserted {key : String} {value : α} {entries : List (String × α)} {e : String × α}
    (mem : e ∈ insert key value entries) : e = (key, value) ∨ e ∈ entries := by
  induction entries with
  | nil => simpa [insert] using mem
  | cons first rest ih =>
    simp only [insert] at mem
    split at mem
    · simpa using mem
    · split at mem
      · exact (List.mem_cons.mp mem).imp_right (List.mem_cons_of_mem _)
      · rcases List.mem_cons.mp mem with here | inside
        · exact .inr (here ▸ List.mem_cons_self)
        · exact (ih inside).imp_right (List.mem_cons_of_mem _)

theorem keyInserted {key : String} {value : α} {entries : List (String × α)} {k : String}
    (mem : k ∈ (insert key value entries).map Prod.fst) :
    k = key ∨ k ∈ entries.map Prod.fst := by
  obtain ⟨e, inside, rfl⟩ := List.mem_map.mp mem
  rcases memInserted inside with rfl | old
  · exact .inl rfl
  · exact .inr (List.mem_map_of_mem old)

theorem insertSorted (key : String) (value : α) {entries : List (String × α)}
    (sorted : Sorted entries) : Sorted (insert key value entries) := by
  induction entries with
  | nil => simp [insert, Sorted]
  | cons e rest ih =>
    obtain ⟨first, v⟩ := e
    obtain ⟨least, others⟩ := sortedCons.mp sorted
    simp only [insert]
    split
    · rename_i before
      refine sortedCons.mpr ⟨?_, sorted⟩
      rw [List.map_cons, List.forall_mem_cons]
      exact ⟨before, fun k mem => lt_trans before (least k mem)⟩
    · rename_i after
      split
      · rename_i same
        subst same
        exact sortedCons.mpr ⟨least, others⟩
      · rename_i other
        refine sortedCons.mpr ⟨fun k mem => ?_, ih others⟩
        rcases keyInserted mem with rfl | inside
        · exact lt_of_le_of_ne (not_lt.mp after) other
        · exact least k inside

theorem insertFresh {key : String} (value : α) {entries : List (String × α)}
    (fresh : key ∉ entries.map Prod.fst) :
    (insert key value entries).Perm ((key, value) :: entries) := by
  induction entries with
  | nil => exact .refl _
  | cons e rest ih =>
    obtain ⟨k, v⟩ := e
    rw [List.map_cons, List.mem_cons, not_or] at fresh
    rw [insert]
    split
    · exact .refl _
    · rw [if_neg (Ne.symm fresh.1)]
      exact ((ih fresh.2).cons (k, v)).trans (.swap ..)

/-- Entries of different keys stay the same entries when they are put in one by one. -/
theorem insertApart {above entries : List (String × α)}
    (apart : ((above ++ entries).map Prod.fst).Nodup) :
    (entries.foldl (fun done e => insert e.1 e.2 done) above).Perm (above ++ entries) := by
  induction entries generalizing above with
  | nil => simp
  | cons e rest ih =>
    have moved : (above ++ e :: rest).Perm (e :: (above ++ rest)) := List.perm_middle
    have first := (moved.map Prod.fst).nodup_iff.mp apart
    rw [List.map_cons, List.nodup_cons, List.map_append, List.mem_append, not_or] at first
    have whole : (insert e.1 e.2 above ++ rest).Perm (above ++ e :: rest) :=
      ((insertFresh e.2 first.1.1).append_right rest).trans moved.symm
    exact (ih ((whole.map Prod.fst).nodup_iff.mpr apart)).trans whole

theorem lookupAbsent {entries : List (String × α)} {key : String}
    (absent : key ∉ entries.map Prod.fst) : entries.lookup key = none := by
  rw [List.lookup_eq_none_iff]
  intro e mem
  simpa using fun same : key = e.1 => absent (same ▸ List.mem_map_of_mem mem)

theorem lookupHead (k : String) (v : α) (rest : List (String × α)) :
    ((k, v) :: rest).lookup k = some v := by
  rw [List.lookup_cons, beq_self_eq_true]

theorem lookupTail {k key : String} (other : key ≠ k) (v : α) (rest : List (String × α)) :
    ((k, v) :: rest).lookup key = rest.lookup key := by
  rw [List.lookup_cons, beq_eq_false_iff_ne.mpr other]

theorem lookupBelow {entries : List (String × α)} {key : String}
    (least : ∀ k ∈ entries.map Prod.fst, key < k) : entries.lookup key = none :=
  lookupAbsent fun mem => lt_irrefl key (least key mem)

theorem lookupInsert (key : String) (value : α) (k : String) (entries : List (String × α)) :
    (insert key value entries).lookup k = if k = key then some value else entries.lookup k := by
  have first (rest : List (String × α)) :
      ((key, value) :: rest).lookup k = if k = key then some value else rest.lookup k := by
    split
    · rename_i same
      rw [same, lookupHead]
    · rename_i other
      exact lookupTail other value rest
  induction entries with
  | nil => exact first []
  | cons e rest ih =>
    obtain ⟨name, v⟩ := e
    rw [insert]
    split
    · exact first _
    · split
      · rename_i same
        rw [first, same]
        split
        · rfl
        · rename_i other
          rw [lookupTail other]
      · rename_i other
        by_cases here : k = name
        · rw [here, lookupHead, lookupHead, if_neg other]
        · rw [lookupTail here, lookupTail here, ih]

theorem lookupEmpty {entries : List (String × α)} (nothing : ∀ key, entries.lookup key = none) :
    entries = [] := by
  cases entries with
  | nil => rfl
  | cons e rest =>
    have found := nothing e.1
    rw [lookupHead] at found
    cases found

section lookups
variable {k k' : String} {v v' : α} {rest rest' : List (String × α)}
variable (least : ∀ key ∈ rest.map Prod.fst, k < key)
variable (least' : ∀ key ∈ rest'.map Prod.fst, k' < key)
include least'

/-- A key before all the keys of a table is not found there. -/
theorem firstNotBefore (same : ((k, v) :: rest).lookup k = ((k', v') :: rest').lookup k) :
    k' ≤ k := by
  by_contra before
  rw [not_le] at before
  rw [lookupHead, lookupTail before.ne,
    lookupBelow fun x mem => lt_trans before (least' x mem)] at same
  cases same

include least
variable (same : ∀ key, ((k, v) :: rest).lookup key = ((k', v') :: rest').lookup key)
include same

theorem firstAgree : (k, v) = (k', v') := by
  have keys : k = k' :=
    le_antisymm (firstNotBefore least (same k').symm) (firstNotBefore least' (same k))
  subst keys
  have values := same k
  rw [lookupHead, lookupHead] at values
  rw [Option.some.inj values]

theorem othersAgree (key : String) : rest.lookup key = rest'.lookup key := by
  cases firstAgree least least' same
  by_cases here : key = k
  · rw [here, lookupBelow least, lookupBelow least']
  · have found := same key
    rwa [lookupTail here, lookupTail here] at found

end lookups

/-- In order, entries are told by their look-ups. -/
theorem sortedExt {a b : List (String × α)} (left : Sorted a) (right : Sorted b)
    (same : ∀ key, a.lookup key = b.lookup key) : a = b := by
  induction a generalizing b with
  | nil => exact (lookupEmpty fun key => (same key).symm).symm
  | cons e rest ih =>
    obtain ⟨least, sorted⟩ := sortedCons.mp left
    cases b with
    | nil => exact lookupEmpty same
    | cons e' rest' =>
      obtain ⟨least', sorted'⟩ := sortedCons.mp right
      have first : e = e' := firstAgree least least' same
      have others : rest = rest' := ih sorted sorted' (othersAgree least least' same)
      rw [first, others]

theorem insertLast {key : String} {value : α} {entries : List (String × α)}
    (last : ∀ k ∈ entries.map Prod.fst, k < key) :
    insert key value entries = entries ++ [(key, value)] := by
  induction entries with
  | nil => rfl
  | cons e rest ih =>
    obtain ⟨k, v⟩ := e
    rw [List.map_cons, List.forall_mem_cons] at last
    obtain ⟨before, others⟩ := last
    rw [insert, if_neg before.not_gt, if_neg before.ne, ih others, List.cons_append]

/-- Entries in order stay as they are when they are put in one by one. -/
theorem insertAll {above entries : List (String × α)} (sorted : Sorted (above ++ entries)) :
    entries.foldl (fun done e => insert e.1 e.2 done) above = above ++ entries := by
  induction entries generalizing above with
  | nil => simp
  | cons e rest ih =>
    have whole : Sorted ((above ++ [e]) ++ rest) := by simpa using sorted
    have last : ∀ k ∈ above.map Prod.fst, k < e.1 := by
      intro k mem
      rw [Sorted, List.map_append, List.pairwise_append] at sorted
      exact sorted.2.2 k mem e.1 (by simp)
    rw [List.foldl_cons, insertLast last, ih whole, List.append_assoc, List.singleton_append]

end NotebookTidy.Keyed
