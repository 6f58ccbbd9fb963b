import NotebookTidy.Engine.Command
import NotebookTidy.Proofs.Config.Regrouping
import NotebookTidy.Proofs.Toml.Inline

/-! The settings that an engine is started with, read as documents one after the other, are the
configuration they were written from exactly if each of its keys is written on one line and each of
its values is kept by a reader. -/
namespace NotebookTidy.Engine.Command
open Config Toml

/-- An entry that its setting is read as. -/
def Legible (e : String × Value) : Prop :=
  OneLine e.1.toList ∧ e.2.levels < depthLimit ∧ e.2.untagged = true

instance (e : String × Value) : Decidable (Legible e) :=
  inferInstanceAs (Decidable (_ ∧ _ ∧ _))

def reread (e : String × Value) : Option (String × Value) :=
  if OneLine e.1.toList then (e.2.reread (depthLimit - 1)).map (e.1, ·) else none

theorem rereadKey {e f : String × Value} (read : reread e = some f) : f.1 = e.1 := by
  rw [reread] at read
  split at read
  · obtain ⟨v, -, rfl⟩ := Option.map_eq_some_iff.mp read
    rfl
  · cases read

theorem rereadIff (e : String × Value) : reread e = some e ↔ Legible e := by
  have shallow : e.2.levels < depthLimit ↔ e.2.levels ≤ depthLimit - 1 :=
    Nat.lt_iff_le_pred (by decide)
  rw [Legible, shallow, ← valueKept, reread]
  split
  · rename_i line
    rw [Option.map_eq_some_iff]
    constructor
    · rintro ⟨v, kept, same⟩
      exact ⟨line, congrArg Prod.snd same ▸ kept⟩
    · rintro ⟨-, kept⟩
      exact ⟨e.2, kept, rfl⟩
  · rename_i lines
    exact ⟨nofun, fun legible => absurd legible.1 lines⟩

def document (e : String × Value) : Table := .cons e.1 e.2 .nil

theorem documentInjective : Function.Injective document := by
  rintro ⟨_, _⟩ ⟨_, _⟩ ⟨⟩
  rfl

def settingText (e : String × Value) : String := keyText e.1 ++ " = " ++ valueText e.2

/-! The key of a setting -/

theorem bareOneLine {key : String} (bare : key.toList.all isBare = true) :
    OneLine key.toList := by
  have apart {c : Char} (other : isBare c = false) : c ∉ key.toList := fun mem => by
    have inside := List.all_eq_true.mp bare c mem
    rw [other] at inside
    cases inside
  exact ⟨apart (by decide), .inr (.inl (apart (by decide)))⟩

theorem keyTextLead {key : String} (filled : key ≠ "") :
    ∃ c rest, (keyText key).toList = c :: rest ∧ Leads c := by
  unfold keyText
  split
  · rename_i bare
    have some_ : key.toList ≠ [] := by simpa using filled
    obtain ⟨c, rest, same⟩ := List.exists_cons_of_ne_nil some_
    exact ⟨c, rest, same, .inl (List.all_eq_true.mp bare c (same ▸ List.mem_cons_self))⟩
  · obtain ⟨mark, rest, same, either⟩ := stringMarked key.toList
    rw [valueText, inlineChars, String.toList_ofList]
    exact ⟨mark, rest, same, .inr either⟩

theorem keyTextRead {key : String} (filled : key ≠ "") (line : OneLine key.toList)
    (rest : List Char) :
    simpleKey ((keyText key).toList ++ ' ' :: rest) = some (key, ' ' :: rest) := by
  unfold keyText
  split
  · rename_i bare
    have stop : ∀ c ∈ (' ' :: rest).head?, isBare c = false := by
      rintro _ ⟨⟩
      rfl
    have read := bareKey (by simpa using filled) bare stop
    rwa [String.ofList_toList] at read
  · have read := stringKey line (' ' :: rest)
    rw [String.ofList_toList] at read
    rwa [valueText, inlineChars, String.toList_ofList]

theorem keyTextLines {key : String} (lines : ¬ OneLine key.toList) (rest : List Char) :
    ∃ mark more, (mark = '"' ∨ mark = '\'') ∧
      simpleKey ((keyText key).toList ++ rest) = some ("", mark :: more) := by
  unfold keyText
  rw [if_neg fun bare => lines (bareOneLine bare), valueText, inlineChars, String.toList_ofList]
  exact linesKey lines rest

/-! A setting as a document -/

theorem expressionPair {c : Char} (leads : Leads c) (rest : List Char) :
    expression [] .nil (c :: rest) =
      (keyValue (value (depthLimit - 1)) (c :: rest)).bind fun ((path, key, v), next) =>
        (Entries.nil.define path key v).bind fun root =>
          (lineEnd? next).bind fun last => some ([], root, last) := by
  unfold expression
  split
  · rename_i same
    exact absurd (List.cons.inj same).1 (leadsApart leads (by decide) (by decide))
  · rename_i same
    exact absurd (List.cons.inj same).1 (leadsApart leads (by decide) (by decide))
  · rename_i same
    exact absurd (List.cons.inj same).1 (leadsApart leads (by decide) (by decide))
  · rename_i same
    exact absurd (List.cons.inj same).1 (leadsApart leads (by decide) (by decide))
  · rename_i same
    exact absurd (List.cons.inj same).1 (leadsApart leads (by decide) (by decide))
  · rfl

theorem readLine {document : String} {c : Char} {rest : List Char}
    (same : document.toList = c :: rest) (leads : Leads c) :
    read? document = (expression [] .nil (c :: rest)).bind fun (header, root, next) =>
      (expressions (rest.length + 1) header root next).bind Entries.table? := by
  have mark : c ≠ '\uFEFF' := leadsApart leads (by decide) (by decide)
  have gap : skipGap (c :: rest) = c :: rest := by
    have open_ := skipGapOpens (leadsOpen leads rest) []
    rwa [List.append_nil] at open_
  rw [read?, same, withoutByteOrderMark, if_neg mark]
  simp only [List.length_cons, expressions, gap, Option.bind_eq_bind, Option.bind_assoc]

theorem settingChars (e : String × Value) : (settingText e).toList =
    (keyText e.1).toList ++ ' ' :: '=' :: ' ' :: inlineChars .tagged e.2 := by
  simp [settingText, valueText]

theorem settingPair {e : String × Value} (filled : e.1 ≠ "") (plain : e.2.Plain)
    (ordered : e.2.Ordered) :
    keyValue (value (depthLimit - 1)) (settingText e).toList =
      (reread e).map fun (key, v) => (([], key, v), []) := by
  obtain ⟨key, v⟩ := e
  rw [settingChars, reread]
  have opened : Opens (keyText key).toList := by
    obtain ⟨c, rest, same, leads⟩ := keyTextLead filled
    exact same ▸ leadsOpen leads rest
  split
  · rename_i line
    have written := keyValueWritten (value (depthLimit - 1)) opened (inlineOpens plain) []
      (keyTextRead filled line)
    rw [inlineRead v plain ordered _ (by rintro _ ⟨⟩), List.append_nil] at written
    rw [written, Option.map_map, Option.map_map]
    rfl
  · rename_i lines
    obtain ⟨mark, more, either, read⟩ := keyTextLines lines
      (' ' :: '=' :: ' ' :: inlineChars .tagged v)
    have one : dottedKey (depthLimit - 1)
        ((keyText key).toList ++ ' ' :: '=' :: ' ' :: inlineChars .tagged v) =
          some ([""], mark :: more) := by
      rw [show depthLimit - 1 = 78 + 1 from rfl, dottedKey, skipGapOpens opened, read]
      obtain rfl | rfl := either <;> rfl
    simp only [keyValue, one, splitLast, Option.bind_eq_bind, Option.bind_some]
    obtain rfl | rfl := either <;> rfl

theorem settingRead {e : String × Value} (filled : e.1 ≠ "") (plain : e.2.Plain)
    (ordered : e.2.Ordered) : read? (settingText e) = (reread e).map document := by
  obtain ⟨c, rest, same, leads⟩ := keyTextLead filled
  have whole : (settingText e).toList =
      c :: (rest ++ ' ' :: '=' :: ' ' :: inlineChars .tagged e.2) := by
    rw [settingChars, same]
    rfl
  have pair := settingPair filled plain ordered
  rw [whole] at pair
  rw [readLine whole leads, expressionPair leads, pair]
  cases reread e with
  | none => rfl
  | some f =>
    have fresh : f.1 ∉ ([] : List (String × Value)).map Prod.fst := List.not_mem_nil
    have defined : Entries.nil.define [] f.1 f.2 = some (rows [(f.1, f.2)]) :=
      rowsDefine fresh f.2
    simp only [Option.map_some, Option.bind_some, defined]
    rfl

/-! All settings of a configuration -/

theorem settingsWritten {t : Table} (filled : "" ∉ t.keys) :
    settingsOf t = .ok (t.toList.map settingText) := by
  rw [Table.keys] at filled
  unfold settingsOf
  generalize t.toList = entries at filled ⊢
  induction entries with
  | nil => rfl
  | cons e rest ih =>
    rw [List.map_cons, List.mem_cons, not_or] at filled
    have written : setting e = .ok (settingText e) := by
      rw [setting, if_neg (by simpa using Ne.symm filled.1)]
      rfl
    rw [List.mapM_cons, written, ih filled.2]
    rfl

theorem mergeLast {base : Table} {key : String} (v : Value)
    (last : ∀ k ∈ base.toList.map Prod.fst, k < key) :
    (merge base (.cons key v .nil)).toList = base.toList ++ [(key, v)] := by
  have absent : base.get? key = none := by
    rw [getToList]
    exact Keyed.lookupAbsent fun mem => lt_irrefl key (last key mem)
  rw [merge, Table.over, Table.over, absent, overNothing, toListInsert, Keyed.insertLast last]

theorem mergeEntries {entries : List (String × Value)} {base : Table}
    (sorted : Keyed.Sorted (base.toList ++ entries)) :
    ((entries.map document).foldl merge base).toList = base.toList ++ entries := by
  induction entries generalizing base with
  | nil => rw [List.map_nil, List.foldl_nil, List.append_nil]
  | cons e rest ih =>
    have last : ∀ k ∈ base.toList.map Prod.fst, k < e.1 := by
      intro k mem
      rw [Keyed.Sorted, List.map_append, List.pairwise_append] at sorted
      exact sorted.2.2 k mem e.1 (by simp)
    have step : (merge base (document e)).toList = base.toList ++ [e] := mergeLast e.2 last
    have whole : Keyed.Sorted ((merge base (document e)).toList ++ rest) := by
      rw [step, List.append_assoc]
      exact sorted
    rw [List.map_cons, List.foldl_cons, ih whole, step, List.append_assoc, List.singleton_append]

theorem entryPlain : (t : Table) → t.Plain → t.Ordered →
    ∀ e ∈ t.toList, e.2.Plain ∧ e.2.Ordered
  | .nil, _, _ => by simp [Table.toList]
  | .cons k v rest, plain, ordered => by
    rw [Table.Plain] at plain
    rw [Table.Ordered] at ordered
    rw [Table.toList, List.forall_mem_cons]
    exact ⟨⟨plain.1, ordered.2.1⟩, entryPlain rest plain.2 ordered.2.2⟩

theorem settingsParsed {entries : List (String × Value)}
    (read : ∀ e ∈ entries, read? (settingText e) = (reread e).map document) :
    ((entries.map settingText).mapM parseOverride).toOption =
      (entries.mapM reread).map fun pairs => pairs.map document := by
  induction entries with
  | nil => rfl
  | cons e rest ih =>
    obtain ⟨first, others⟩ := List.forall_mem_cons.mp read
    have tail := ih others
    rw [List.map_cons, List.mapM_cons, List.mapM_cons, parseOverride, first]
    generalize (rest.map settingText).mapM parseOverride = parsed at tail ⊢
    generalize rest.mapM reread = pairs at tail ⊢
    cases reread e with
    | none => rfl
    | some f => cases parsed <;> cases pairs <;> cases tail <;> rfl

theorem rereadNames {entries pairs : List (String × Value)}
    (read : entries.mapM reread = some pairs) : pairs.map Prod.fst = entries.map Prod.fst := by
  induction entries generalizing pairs with
  | nil =>
    cases read
    rfl
  | cons e rest ih =>
    simp only [List.mapM_cons, Option.bind_eq_bind, Option.bind_eq_some_iff] at read
    obtain ⟨f, first, others, tail, last⟩ := read
    cases last
    rw [List.map_cons, List.map_cons, rereadKey first, ih tail]

theorem rereadAll (entries : List (String × Value)) :
    entries.mapM reread = some entries ↔ ∀ e ∈ entries, Legible e := by
  induction entries with
  | nil => simp
  | cons e rest ih =>
    rw [List.forall_mem_cons, ← ih, ← rereadIff]
    simp only [List.mapM_cons, Option.bind_eq_bind, Option.bind_eq_some_iff]
    constructor
    · rintro ⟨f, first, others, tail, last⟩
      cases last
      exact ⟨first, tail⟩
    · rintro ⟨first, tail⟩
      exact ⟨e, first, rest, tail, rfl⟩

theorem mergedBack {t : Table} (sorted : t.Sorted) {refusal : Type}
    {layers : Except refusal (List Table)}
    (parsed : layers.toOption = (t.toList.mapM reread).map fun pairs => pairs.map document) :
    layers.map (·.foldl merge .empty) = .ok t ↔ t.toList.mapM reread = some t.toList := by
  cases found : t.toList.mapM reread with
  | none =>
    rw [found] at parsed
    cases layers with
    | error refused => exact ⟨nofun, nofun⟩
    | ok tables => cases parsed
  | some pairs =>
    rw [found] at parsed
    cases layers with
    | error refused => cases parsed
    | ok tables =>
      obtain rfl : tables = pairs.map document := Option.some.inj parsed
      -- Whatever became of the values, the keys are still in order, and the merge keeps each entry.
      have kept : Keyed.Sorted pairs := by rwa [Keyed.Sorted, rereadNames found]
      have merged : ((pairs.map document).foldl merge .empty).toList = pairs := mergeEntries kept
      rw [Except.map, Except.ok.injEq, Option.some.injEq]
      constructor
      · intro same
        rw [← merged, same]
      · intro same
        exact toListInjective _ _ (merged.trans same)

/-- What the settings of a configuration say of it. -/
structure Told (t : Table) (settings : List String) : Prop where
  spelled : settings = t.toList.map settingText
  single : ∀ e ∈ t.toList, read? (settingText e) = some (document e) ↔ Legible e
  refused : ∀ e ∈ t.toList, ¬ OneLine e.1.toList → read? (settingText e) = none
  whole : parseOverrides settings = .ok t ↔ ∀ e ∈ t.toList, Legible e

/-- There is a setting for each entry, and together they say what the configuration does if, and
only if, each of them does. -/
theorem settingsTold {t : OrderedTable} (filled : "" ∉ t.table.keys) (plain : t.table.Plain) :
    ∃ settings, settingsOf t = .ok settings ∧ Told t settings := by
  have read : ∀ e ∈ t.table.toList, read? (settingText e) = (reread e).map document := by
    intro e mem
    obtain ⟨inside, below⟩ := entryPlain t plain t.ordered e mem
    exact settingRead (fun same => filled (same ▸ List.mem_map_of_mem mem)) inside below
  refine ⟨_, settingsWritten filled, rfl, fun e mem => ?_, fun e mem lines => ?_, ?_⟩
  · rw [read e mem, ← rereadIff]
    exact (Option.map_injective documentInjective).eq_iff (b := some e)
  · rw [read e mem, reread, if_neg lines, Option.map_none]
  · rw [parseOverridesMerge, ← rereadAll]
    exact mergedBack t.sorted (settingsParsed read)

def nestedOptions : Table :=
  .cons "it's odd" (.string "it's \"\"\" odd\n'''") (.cons "lint" (.table
    (.cons "" (.array (.cons (.integer (-7)) (.cons (.table .nil) .nil)))
      (.cons "a.b\n\"c\"" (.string "\\'\x07")
        (.cons "since" (.datetime (.both ⟨1979, 5, 27, by decide⟩ ⟨7, 32, 0, 500000000, by decide⟩
          (some (.minutes (-450))))) .nil)))) .nil)

theorem settingsToldNested : ∃ settings, settingsOf nestedOptions = .ok settings ∧
    settings.length = 2 ∧ parseOverrides settings = .ok nestedOptions := by
  have ordered : nestedOptions.Ordered := by
    simp only [nestedOptions, Table.Ordered, Value.Ordered, Values.Ordered]
    decide
  have plain : nestedOptions.Plain := by
    simp only [nestedOptions, Table.Plain, Value.Plain, Values.Plain, Daily]
    decide
  have legible : ∀ e ∈ nestedOptions.toList, Legible e := by decide +kernel
  have filled : "" ∉ nestedOptions.keys := by decide
  obtain ⟨settings, written, told⟩ := settingsTold (t := ⟨nestedOptions, ordered⟩) filled plain
  exact ⟨settings, written, by rw [told.spelled]; rfl, told.whole.mpr legible⟩

def deepValue : Nat → Value
  | 0 => .integer 1
  | n + 1 => .array (.cons (deepValue n) .nil)

theorem deepPlain (n : Nat) : (deepValue n).Plain ∧ (deepValue n).Ordered := by
  induction n with
  | zero => simp [deepValue, Value.Plain, Value.Ordered]
  | succ n ih => simp [deepValue, Value.Plain, Values.Plain, Value.Ordered, Values.Ordered, ih]

theorem deepReread {n depth : Nat} (deep : depth < n) : (deepValue n).reread depth = none := by
  induction n generalizing depth with
  | zero => exact absurd deep (Nat.not_lt_zero depth)
  | succ n ih =>
    cases depth with
    | zero => rfl
    | succ depth =>
      rw [deepValue, Value.reread, Values.reread, ih (Nat.lt_of_succ_lt_succ deep)]
      rfl

/-- A key with a line feed is written as a text that is no key, a table inside may be taken for a
moment, and a value may nest deeper than a reader goes. -/
theorem settingsLost :
    settingsOf (.cons "a\nb" (.boolean true) .nil) = .ok ["\"\"\"\na\nb\"\"\" = true"] ∧
      read? "\"\"\"\na\nb\"\"\" = true" = none ∧
      settingsOf (.cons "a" (.table (.cons momentKey (.string "b") .nil)) .nil) =
        .ok ["a = \x7b \"$__toml_private_datetime\" = \"b\" \x7d"] ∧
      read? "a = \x7b \"$__toml_private_datetime\" = \"b\" \x7d" = none ∧
      settingsOf (.cons "a" (deepValue 80) .nil) = .ok [settingText ("a", deepValue 80)] ∧
      read? (settingText ("a", deepValue 80)) = none := by
  obtain ⟨plain, ordered⟩ := deepPlain 80
  have deep : (deepValue 80).reread (depthLimit - 1) = none := deepReread (by decide)
  refine ⟨by decide +kernel, by decide +kernel, by decide +kernel, by decide +kernel,
    settingsWritten (by decide), ?_⟩
  rw [settingRead (by decide) plain ordered, reread, deep]
  rfl

end NotebookTidy.Engine.Command
