import NotebookTidy.Proofs.Toml.Reread

/-! A value that is written on one line is read for what `Value.reread` leaves of it. -/
namespace NotebookTidy.Toml
open Config
open Text (joined)

variable {chars tail : List Char}

/-! First characters -/

/-- What the readers skip in front of a value, and the closing brackets. -/
def skipped : List Char := [' ', '\t', '\n', '\r', '#', ']', '\x7d']

def Opens (chars : List Char) : Prop := ∃ c rest, chars = c :: rest ∧ c ∉ skipped

theorem skipGapOpens (opens : Opens chars) (tail : List Char) :
    skipGap (chars ++ tail) = chars ++ tail := by
  obtain ⟨c, rest, rfl, other⟩ := opens
  simp only [skipped, List.mem_cons, List.not_mem_nil, or_false, not_or] at other
  rw [List.cons_append, skipGap, List.dropWhile_cons, if_neg (by simp [isGap, other])]

theorem skipLinesOpens (opens : Opens chars) (tail : List Char) :
    skipLines (chars ++ tail) = chars ++ tail := by
  obtain ⟨c, rest, rfl, other⟩ := opens
  simp only [skipped, List.mem_cons, List.not_mem_nil, or_false, not_or] at other
  rw [List.cons_append, skipLines, if_neg (by simp [isGap, other]), if_neg (by simp [other])]
  rintro _ rfl
  exact absurd rfl other.2.2.2.1

/-- The first characters of keys, and of strings and integers. -/
def Leads (c : Char) : Prop := isBare c = true ∨ c = '"' ∨ c = '\''

theorem leadsApart {c d : Char} (leads : Leads c) (plain : isBare d = false)
    (other : d ≠ '"' ∧ d ≠ '\'') : c ≠ d := by
  rintro rfl
  rcases leads with bare | double | single
  · rw [plain] at bare
    cases bare
  · exact other.1 double
  · exact other.2 single

theorem leadsOpen {c : Char} (leads : Leads c) (rest : List Char) : Opens (c :: rest) := by
  refine ⟨c, rest, rfl, fun mem => ?_⟩
  simp only [skipped, List.mem_cons, List.not_mem_nil, or_false] at mem
  rcases mem with same | same | same | same | same | same | same <;>
    exact leadsApart leads (by decide) (by decide) same

theorem stringOpens (text : List Char) : Opens (stringChars text) := by
  obtain ⟨mark, rest, same, either⟩ := stringMarked text
  exact same ▸ leadsOpen (.inr either) rest

theorem integerOpens (n : Int64) : Opens (toString n.toInt).toList := by
  obtain ⟨c, rest, same, lead⟩ := integerLead n
  have bare : isBare c = true := by
    rcases lead with rfl | digit
    · rfl
    · rw [isDigit] at digit
      rw [isBare, digit]
      simp
  exact same ▸ leadsOpen (.inl bare) rest

theorem tableOpens (pairs : List (List Char)) : Opens (inlineTable pairs) := by
  unfold inlineTable
  split
  · exact ⟨_, _, rfl, by decide⟩
  · exact ⟨_, _, rfl, by decide⟩

theorem inlineOpens {v : Value} (plain : v.Plain) : Opens (inlineChars .tagged v) := by
  cases v with
  | string s => exact stringOpens s.toList
  | integer n => exact integerOpens n
  | float x => exact absurd plain (by simp [Value.Plain])
  | boolean flag =>
    cases flag
    · exact ⟨'f', _, rfl, by decide⟩
    · exact ⟨'t', _, rfl, by decide⟩
  | datetime d =>
    rw [inlineChars, momentChars]
    exact tableOpens _
  | array vs =>
    rw [inlineChars]
    exact ⟨'[', _, rfl, by decide⟩
  | table t =>
    rw [inlineChars]
    exact tableOpens _

theorem bareOpens {text : List Char} (filled : text ≠ []) (bare : text.all isBare = true) :
    Opens text := by
  obtain ⟨c, rest, rfl⟩ := List.exists_cons_of_ne_nil filled
  exact leadsOpen (.inl (List.all_eq_true.mp bare c List.mem_cons_self)) rest

theorem keyOpens (key : String) : Opens (keyChars key) := by
  unfold keyChars
  dsimp only
  split_ifs with bare
  · simp only [Bool.and_eq_true, Bool.not_eq_true', List.isEmpty_eq_false_iff] at bare
    exact bareOpens bare.1 bare.2
  · exact ⟨_, _, rfl, by decide⟩
  · exact ⟨_, _, rfl, by decide⟩
  · exact ⟨_, _, rfl, by decide⟩

/-! One step of the readers -/

theorem valueScalar {c : Char} (array : c ≠ '[') (table : c ≠ '\x7b') (depth : Nat)
    (rest : List Char) : value depth (c :: rest) = scalar (c :: rest) := by
  cases depth with
  | zero => rfl
  | succ depth =>
    rw [value]
    · exact fun _ same => array (List.cons.inj same).1
    · exact fun _ same => table (List.cons.inj same).1

theorem keyValueWritten (item : Read Value) {key : String} {spelled chars : List Char}
    (opened : Opens spelled) (filled : Opens chars) (tail : List Char)
    (reads : ∀ rest, simpleKey (spelled ++ ' ' :: rest) = some (key, ' ' :: rest)) :
    keyValue item (spelled ++ ' ' :: '=' :: ' ' :: (chars ++ tail)) =
      (item (chars ++ tail)).map fun (v, rest) => (([], key, v), rest) := by
  have gap : skipGap (' ' :: '=' :: ' ' :: (chars ++ tail)) = '=' :: ' ' :: (chars ++ tail) := rfl
  have inner : skipGap (' ' :: (chars ++ tail)) = chars ++ tail :=
    (skipGapOpens filled tail : skipGap (chars ++ tail) = _)
  have one : dottedKey (depthLimit - 1) (spelled ++ ' ' :: '=' :: ' ' :: (chars ++ tail)) =
      some ([key], '=' :: ' ' :: (chars ++ tail)) := by
    rw [show depthLimit - 1 = 78 + 1 from rfl, dottedKey, skipGapOpens opened, reads]
    simp only [Option.bind_eq_bind, Option.bind_some, gap]
    rfl
  simp only [keyValue, one, splitLast, literally, Option.bind_eq_bind, Option.bind_some, if_true,
    inner]
  cases item (chars ++ tail) <;> rfl

/-! Entries of a table that are all single pairs -/

def rows (pairs : List (String × Value)) : Entries :=
  pairs.foldr (fun (key, v) rest => .cons key (.value v) rest) .nil

theorem rowsDefine {done : List (String × Value)} {key : String} (fresh : key ∉ done.map Prod.fst)
    (v : Value) : (rows done).define [] key v = some (rows (done ++ [(key, v)])) := by
  have added {change : Option Item → Option Item} (made : change none = some (.value v)) :
      (rows done).update key change = some (rows (done ++ [(key, v)])) := by
    induction done with
    | nil =>
      rw [rows, List.foldr_nil, Entries.update, made]
      rfl
    | cons e rest ih =>
      rw [List.map_cons, List.mem_cons, not_or] at fresh
      have inner := ih fresh.2
      simp only [rows, List.foldr_cons, List.cons_append] at inner ⊢
      rw [Entries.update, if_neg (Ne.symm fresh.1), inner]
      rfl
  exact added rfl

theorem rowsTable (pairs : List (String × Value)) :
    (rows pairs).table? = some (pairs.foldr (fun e t => t.insert e.1 e.2) .empty) := by
  induction pairs with
  | nil => rfl
  | cons e rest ih =>
    rw [rows] at ih
    rw [rows, List.foldr_cons, List.foldr_cons]
    simp only [Entries.table?, Item.value?, ih, Option.bind_eq_bind, Option.bind_some]

theorem insertedBack {pairs : List (String × Value)} (sorted : Keyed.Sorted pairs) :
    (pairs.foldr (fun e t => t.insert e.1 e.2) Table.empty).toList = pairs := by
  induction pairs with
  | nil => rfl
  | cons e rest ih =>
    obtain ⟨least, others⟩ := Keyed.sortedCons.mp sorted
    rw [List.foldr_cons, toListInsert, ih others]
    cases rest with
    | nil => rfl
    | cons next more => rw [Keyed.insert, if_pos (least next.1 List.mem_cons_self)]

theorem rowsValue {t : Table} (sorted : t.Sorted) : (rows t.toList).value? = t.taken := by
  have whole : (rows t.toList).table? = some t := by
    rw [rowsTable, toListInjective _ t (insertedBack sorted)]
  cases t with
  | nil => rfl
  | cons k v rest =>
    rw [Table.toList, rows, List.foldr_cons] at whole ⊢
    simp only [Entries.table?, Item.value?, Option.bind_eq_bind, Option.bind_some] at whole
    simp only [Entries.value?, Item.value?, Option.bind_eq_bind, Option.bind_some, Table.taken]
    split
    · rfl
    · obtain ⟨inner, found, same⟩ := Option.bind_eq_some_iff.mp whole
      rw [found, Option.bind_some, Option.some.inj same]

theorem rowsMoment {d : Datetime} (daily : Daily d) :
    (rows [(momentKey, .string d.text)]).value? = some (.datetime d) := by
  have sorted : (Table.cons momentKey (.string d.text) .nil).Sorted := List.pairwise_singleton _ _
  have taken := rowsValue sorted
  rwa [Table.toList, Table.toList, Table.taken, if_pos rfl, Value.string?, Option.bind_some,
    momentRead daily, Option.map_some] at taken

/-! One item of an array -/

section steps
variable {item : Read Value} {r : Option Value} {text : List Char} {fuel : Nat}

theorem arrayItemsGap (item : Read Value) (fuel : Nat) (text : List Char) :
    arrayItems item fuel (' ' :: text) = arrayItems item fuel text := by
  have gap : skipLines (' ' :: text) = skipLines text := by
    rw [skipLines, if_pos (by decide)]
    rintro _ ⟨⟩
  cases fuel with
  | zero => rfl
  | succ fuel => rw [arrayItems, arrayItems, gap]

theorem skipLinesMark {c : Char} (mark : c = ',' ∨ c = ']') (rest : List Char) :
    skipLines (c :: rest) = c :: rest := by
  rcases mark with rfl | rfl <;>
  · rw [skipLines, if_neg (by decide), if_neg (by decide)]
    rintro _ ⟨⟩

theorem arrayItemsOpens (opens : Opens chars) (tail : List Char) :
    arrayItems item (fuel + 1) (chars ++ tail) = (item (chars ++ tail)).bind fun (v, rest) =>
      match skipLines rest with
      | ',' :: more => (arrayItems item fuel more).bind fun (vs, next) => some (v :: vs, next)
      | ']' :: next => some ([v], next)
      | _ => none := by
  have start := skipLinesOpens opens tail
  obtain ⟨c, rest, rfl, other⟩ := opens
  have apart : c ≠ ']' := fun same => other (same ▸ by decide)
  rw [arrayItems, start]
  split
  · rename_i same
    exact absurd (List.cons.inj same).1 apart
  · rfl

theorem arrayLast (opens : Opens chars)
    (read : item (chars ++ ']' :: tail) = r.map (·, ']' :: tail)) :
    arrayItems item (fuel + 1) (chars ++ ']' :: tail) = r.map fun v => ([v], tail) := by
  rw [arrayItemsOpens opens, read]
  cases r with
  | none => rfl
  | some v => simp only [Option.map_some, Option.bind_some, skipLinesMark (.inr rfl)]

theorem arrayMore {others : Option Values} (opens : Opens chars)
    (read : item (chars ++ ',' :: ' ' :: text) = r.map (·, ',' :: ' ' :: text))
    (more : arrayItems item fuel text = others.map fun vs => (vs.toList, tail)) :
    arrayItems item (fuel + 1) (chars ++ ',' :: ' ' :: text) =
      (r.bind fun v => others.map (Values.cons v)).map fun vs => (vs.toList, tail) := by
  rw [arrayItemsOpens opens, read]
  cases r with
  | none => rfl
  | some v =>
    simp only [Option.map_some, Option.bind_some, skipLinesMark (.inl rfl)]
    rw [arrayItemsGap, more]
    cases others <;> rfl

/-! One pair of a table -/

variable {key : String} {done : List (String × Value)}

theorem inlinePairsGap (item : Read Value) (fuel : Nat) (entries : Entries) (text : List Char) :
    inlinePairs item fuel entries (' ' :: text) = inlinePairs item fuel entries text := by
  cases fuel <;> rfl

theorem keyValuePair (opens : Opens chars) (read : item (chars ++ tail) = r.map (·, tail)) :
    keyValue item (pair key chars ++ tail) = r.map fun v => (([], key, v), tail) := by
  have whole : pair key chars ++ tail = keyChars key ++ ' ' :: '=' :: ' ' :: (chars ++ tail) := by
    simp [pair]
  have spelled (rest : List Char) : simpleKey (keyChars key ++ ' ' :: rest) =
      some (key, ' ' :: rest) :=
    keyRead key fun c mem => by
      cases mem
      rfl
  rw [whole, keyValueWritten item (keyOpens key) opens tail spelled, read, Option.map_map]
  rfl

theorem pairLast (fresh : key ∉ done.map Prod.fst) (opens : Opens chars)
    (read : item (chars ++ ' ' :: '\x7d' :: tail) = r.map (·, ' ' :: '\x7d' :: tail)) :
    inlinePairs item (fuel + 1) (rows done) (pair key chars ++ ' ' :: '\x7d' :: tail) =
      r.map fun v => (rows (done ++ [(key, v)]), tail) := by
  have gap : skipGap (' ' :: '\x7d' :: tail) = '\x7d' :: tail := rfl
  rw [inlinePairs, keyValuePair opens read]
  cases r with
  | none => rfl
  | some v =>
    simp only [Option.map_some, Option.bind_eq_bind, Option.bind_some, rowsDefine fresh, gap]

theorem pairMore {others : Option Table} (fresh : key ∉ done.map Prod.fst) (opens : Opens chars)
    (read : item (chars ++ ',' :: ' ' :: text) = r.map (·, ',' :: ' ' :: text))
    (more : ∀ v, inlinePairs item fuel (rows (done ++ [(key, v)])) text =
      others.map fun t => (rows (done ++ [(key, v)] ++ t.toList), tail)) :
    inlinePairs item (fuel + 1) (rows done) (pair key chars ++ ',' :: ' ' :: text) =
      (r.bind fun v => others.map (Table.cons key v)).map fun t =>
        (rows (done ++ t.toList), tail) := by
  have gap : skipGap (',' :: ' ' :: text) = ',' :: ' ' :: text := rfl
  rw [inlinePairs, keyValuePair opens read]
  cases r with
  | none => rfl
  | some v =>
    simp only [Option.map_some, Option.bind_eq_bind, Option.bind_some, rowsDefine fresh, gap]
    rw [inlinePairsGap, more, Option.map_map]
    simp only [Function.comp_def, Table.toList, List.append_assoc, List.singleton_append]

end steps

/-! Whole values -/

theorem joinedLength : (parts : List (List Char)) →
    parts.length ≤ (joined commaSpace parts).length + 1
  | [] => Nat.zero_le _
  | [s] => Nat.le_add_left 1 _
  | s :: next :: more => by
    have inner := joinedLength (next :: more)
    have whole : joined commaSpace (s :: next :: more) =
        s ++ commaSpace ++ joined commaSpace (next :: more) := rfl
    have size : commaSpace.length = 2 := rfl
    rw [whole, List.length_append, List.length_append, List.length_cons]
    omega

theorem itemsLength : (vs : Values) → (inlineItems .tagged vs).length = vs.toList.length
  | .nil => rfl
  | .cons v rest => by
    rw [inlineItems, Values.toList, List.length_cons, List.length_cons, itemsLength rest]

theorem pairsLength : (t : Table) → (inlinePairsOf .tagged t).length = t.toList.length
  | .nil => rfl
  | .cons k v rest => by
    rw [inlinePairsOf, Table.toList, List.length_cons, List.length_cons, pairsLength rest]

/-- The length of the text is the fuel of the reader, and there is a mark after each item. -/
theorem itemsFit (vs : Values) (tail : List Char) : vs.toList.length <
    (joined commaSpace (inlineItems .tagged vs) ++ ']' :: tail).length + 1 := by
  have short := joinedLength (inlineItems .tagged vs)
  rw [itemsLength] at short
  rw [List.length_append, List.length_cons]
  omega

theorem valuesToList : (vs : Values) → Values.ofList vs.toList = vs
  | .nil => rfl
  | .cons v rest => by rw [Values.toList, Values.ofList, valuesToList rest]

theorem endsMark {c : Char} (mark : c = ',' ∨ c = ']' ∨ c = ' ') (rest : List Char) :
    Ends (c :: rest) := by
  rintro _ ⟨⟩
  exact mark

theorem valueClosed {c : Char} (mark : c = '[' ∨ c = '\x7b') (rest : List Char) :
    value 0 (c :: rest) = none := by
  rcases mark with rfl | rfl <;> rfl

theorem tableBrace (pairs : List (List Char)) : ∃ rest, inlineTable pairs = '\x7b' :: rest := by
  unfold inlineTable
  split <;> exact ⟨_, rfl⟩

theorem opensAppend (opens : Opens chars) (more : List Char) : Opens (chars ++ more) := by
  obtain ⟨c, rest, rfl, other⟩ := opens
  exact ⟨c, rest ++ more, rfl, other⟩

theorem pairsOpen (key : String) (chars : List Char) (pairs : List (List Char)) :
    Opens (joined commaSpace (pair key chars :: pairs)) := by
  have first : Opens (pair key chars) := by
    rw [pair, List.append_assoc]
    exact opensAppend (keyOpens key) _
  cases pairs with
  | nil => exact first
  | cons next more =>
    have whole : joined commaSpace (pair key chars :: next :: more) =
        pair key chars ++ commaSpace ++ joined commaSpace (next :: more) := rfl
    rw [whole, List.append_assoc]
    exact opensAppend first _

/-- An inline table is read pair by pair, and taken for what its pairs stand for. -/
theorem valuePairs {row : List Char} {more : List (List Char)}
    (opens : Opens (joined commaSpace (row :: more))) (depth : Nat) (tail : List Char) :
    ∃ fuel, (row :: more).length ≤ fuel ∧
      value (depth + 1) (inlineTable (row :: more) ++ tail) =
        (inlinePairs (value depth) fuel .nil
          (joined commaSpace (row :: more) ++ ' ' :: '\x7d' :: tail)).bind fun (entries, next) =>
            entries.value?.bind fun v => some (v, next) := by
  have whole : inlineTable (row :: more) ++ tail =
      '\x7b' :: ' ' :: (joined commaSpace (row :: more) ++ ' ' :: '\x7d' :: tail) := by
    simp [inlineTable]
  have enough := joinedLength (row :: more)
  have start : skipGap (' ' :: (joined commaSpace (row :: more) ++ ' ' :: '\x7d' :: tail)) = _ :=
    skipGapOpens opens (' ' :: '\x7d' :: tail)
  generalize joined commaSpace (row :: more) = text at *
  obtain ⟨c, rest, rfl, other⟩ := opens
  have apart : c ≠ '\x7d' := fun same => other (same ▸ by decide)
  refine ⟨(c :: rest ++ ' ' :: '\x7d' :: tail).length + 1, ?_, ?_⟩
  · rw [List.length_append]
    omega
  · rw [whole, value, start]
    simp only [Option.bind_eq_bind]
    split
    · rename_i same
      exact absurd (List.cons.inj same).1 apart
    · rfl

theorem valueString (ends : Ends tail) (text : List Char) (depth : Nat) :
    value depth (stringChars text ++ tail) = some (.string (String.ofList text), tail) := by
  have read := scalarString text (endsUnmarked ends)
  obtain ⟨mark, rest, same, either⟩ := stringMarked text
  rw [same, List.cons_append] at read ⊢
  rw [← read]
  obtain rfl | rfl := either <;> exact valueScalar (by decide) (by decide) ..

theorem momentInline {d : Datetime} (daily : Daily d) (depth : Nat) (tail : List Char) :
    value depth (momentChars .tagged d ++ tail) =
      ((Value.datetime d).reread depth).map (·, tail) := by
  rw [momentChars]
  cases depth with
  | zero => exact valueClosed (.inr rfl) _
  | succ depth =>
    have read : value depth (stringChars d.chars ++ ' ' :: '\x7d' :: tail) =
        (some (Value.string d.text)).map (·, ' ' :: '\x7d' :: tail) :=
      valueString (endsMark (.inr (.inr rfl)) ('\x7d' :: tail)) d.chars depth
    obtain ⟨fuel, enough, pairs⟩ := valuePairs (pairsOpen momentKey (stringChars d.chars) [])
      depth tail
    obtain ⟨fuel, rfl⟩ := Nat.exists_eq_add_one.mpr enough
    have one : inlinePairs (value depth) (fuel + 1) (rows [])
        (pair momentKey (stringChars d.chars) ++ ' ' :: '\x7d' :: tail) =
          some (rows [(momentKey, .string d.text)], tail) :=
      pairLast (by simp) (stringOpens d.chars) read
    rw [pairs]
    refine (congrArg (Option.bind · _) one).trans ?_
    rw [Option.bind_some]
    exact congrArg (Option.bind · _) (rowsMoment daily)

mutual
theorem inlineRead : (v : Value) → v.Plain → v.Ordered → (depth : Nat) → {tail : List Char} →
    Ends tail → value depth (inlineChars .tagged v ++ tail) = (v.reread depth).map (·, tail)
  | .string s, _, _, depth, tail, ends => by
    rw [inlineChars, valueString ends, String.ofList_toList, Value.reread, Option.map_some]
  | .integer n, _, _, depth, tail, ends => by
    obtain ⟨c, rest, same, lead⟩ := integerLead n
    have read := scalarInteger n ends
    rw [inlineChars, Value.reread, Option.map_some, ← read, same, List.cons_append]
    exact valueScalar (leadApart lead (by decide) (by decide))
      (leadApart lead (by decide) (by decide)) ..
  | .float x, plain, _, _, _, _ => absurd plain (by simp [Value.Plain])
  | .boolean flag, _, _, depth, tail, ends => by
    rw [inlineChars, Value.reread, Option.map_some, ← scalarBoolean flag tail]
    cases flag <;> exact valueScalar (by decide) (by decide) ..
  | .datetime d, plain, _, depth, tail, _ => by
    rw [Value.Plain] at plain
    rw [inlineChars, momentInline plain]
  | .array vs, plain, ordered, depth, tail, ends => by
    rw [Value.Plain] at plain
    rw [Value.Ordered] at ordered
    rw [inlineChars]
    cases depth with
    | zero => exact valueClosed (.inl rfl) _
    | succ depth =>
      simp only [List.cons_append, List.append_assoc, List.nil_append]
      rw [value, itemsRead vs plain ordered depth (itemsFit vs tail) tail, Value.reread]
      simp only [Option.map_map, Function.comp_def, valuesToList]
  | .table t, plain, ordered, depth, tail, ends => by
    rw [Value.Plain] at plain
    rw [Value.Ordered] at ordered
    rw [inlineChars]
    cases depth with
    | zero =>
      obtain ⟨rest, same⟩ := tableBrace (inlinePairsOf .tagged t)
      rw [same]
      exact valueClosed (.inr rfl) _
    | succ depth =>
      cases t with
      | nil => rfl
      | cons k v rest =>
        obtain ⟨fuel, enough, pairs⟩ := valuePairs (pairsOpen k (inlineChars .tagged v)
          (inlinePairsOf .tagged rest)) depth tail
        rw [← inlinePairsOf, pairsLength] at enough
        have read := pairsRead (.cons k v rest) plain ordered (by simp) depth enough []
          (by simp) tail
        rw [inlinePairsOf] at read ⊢
        rw [pairs, Value.reread]
        refine (congrArg (Option.bind · _) read).trans ?_
        cases reread : (Table.cons k v rest).reread depth with
        | none => rfl
        | some u =>
          have taken := rowsValue (rereadSorted reread (orderedSorted ordered))
          simp only [Option.map_some, Option.bind_some, List.nil_append, taken]
          cases u.taken <;> rfl
theorem itemsRead : (vs : Values) → vs.Plain → vs.Ordered → (depth : Nat) → {fuel : Nat} →
    vs.toList.length < fuel → (tail : List Char) →
    arrayItems (value depth) fuel (joined commaSpace (inlineItems .tagged vs) ++ ']' :: tail) =
      (vs.reread depth).map fun ws => (ws.toList, tail)
  | .nil, _, _, depth, fuel, enough, tail => by
    obtain ⟨fuel, rfl⟩ := Nat.exists_eq_add_one.mpr enough
    rw [inlineItems, joined, List.nil_append, arrayItems, skipLinesMark (.inr rfl)]
    rfl
  | .cons v .nil, plain, ordered, depth, fuel, enough, tail => by
    rw [Values.Plain] at plain
    rw [Values.Ordered] at ordered
    have read := inlineRead v plain.1 ordered.1 depth (endsMark (.inr (.inl rfl)) tail)
    obtain ⟨fuel, rfl⟩ := Nat.exists_eq_add_one.mpr (Nat.zero_lt_of_lt enough)
    rw [inlineItems, inlineItems, joined, arrayLast (inlineOpens plain.1) read, Values.reread]
    cases v.reread depth <;> rfl
  | .cons v (.cons next more), plain, ordered, depth, fuel, enough, tail => by
    rw [Values.Plain] at plain
    rw [Values.Ordered] at ordered
    obtain ⟨fuel, rfl⟩ := Nat.exists_eq_add_one.mpr (Nat.zero_lt_of_lt enough)
    have others := itemsRead (.cons next more) plain.2 ordered.2 depth
      (Nat.lt_of_succ_lt_succ enough) tail
    have read := inlineRead v plain.1 ordered.1 depth (endsMark (.inl rfl)
      (' ' :: (joined commaSpace (inlineItems .tagged (.cons next more)) ++ ']' :: tail)))
    have whole : joined commaSpace (inlineItems .tagged (.cons v (.cons next more))) ++
        ']' :: tail = inlineChars .tagged v ++ ',' :: ' ' ::
          (joined commaSpace (inlineItems .tagged (.cons next more)) ++ ']' :: tail) := by
      simp [inlineItems, joined, commaSpace]
    rw [whole, Values.reread]
    exact arrayMore (inlineOpens plain.1) read others
theorem pairsRead : (t : Table) → t.Plain → t.Ordered → t ≠ .nil → (depth : Nat) →
    {fuel : Nat} → t.toList.length ≤ fuel → (done : List (String × Value)) →
    (∀ key ∈ t.keys, key ∉ done.map Prod.fst) → (tail : List Char) →
    inlinePairs (value depth) fuel (rows done)
        (joined commaSpace (inlinePairsOf .tagged t) ++ ' ' :: '\x7d' :: tail) =
      (t.reread depth).map fun u => (rows (done ++ u.toList), tail)
  | .nil, _, _, filled, _, _, _, _, _, _ => absurd rfl filled
  | .cons k v .nil, plain, ordered, _, depth, fuel, enough, done, fresh, tail => by
    rw [Table.Plain] at plain
    rw [Table.Ordered] at ordered
    have read := inlineRead v plain.1 ordered.2.1 depth
      (endsMark (.inr (.inr rfl)) ('\x7d' :: tail))
    obtain ⟨fuel, rfl⟩ : ∃ n, fuel = n + 1 := Nat.exists_eq_add_one.mpr enough
    have head := fresh k List.mem_cons_self
    rw [inlinePairsOf, inlinePairsOf, joined, pairLast head (inlineOpens plain.1) read,
      Table.reread]
    cases v.reread depth <;> rfl
  | .cons k v (.cons key next more), plain, ordered, _, depth, fuel, enough, done, fresh, tail => by
    rw [Table.Plain] at plain
    rw [Table.Ordered] at ordered
    obtain ⟨fuel, rfl⟩ : ∃ n, fuel = n + 1 :=
      Nat.exists_eq_add_one.mpr (Nat.lt_of_lt_of_le (Nat.succ_pos _) enough)
    have behind (w : Value) : ∀ name ∈ (Table.cons key next more).keys,
        name ∉ (done ++ [(k, w)]).map Prod.fst := by
      intro name mem
      have later := fresh name (List.mem_cons_of_mem _ mem)
      have apart : name ≠ k := (ordered.1 name mem).ne'
      simpa using ⟨by simpa using later, apart⟩
    have others (w : Value) := pairsRead (.cons key next more) plain.2 ordered.2.2 (by simp) depth
      (Nat.le_of_succ_le_succ enough) (done ++ [(k, w)]) (behind w) tail
    have read := inlineRead v plain.1 ordered.2.1 depth (endsMark (.inl rfl)
      (' ' :: (joined commaSpace (inlinePairsOf .tagged (.cons key next more)) ++
        ' ' :: '\x7d' :: tail)))
    have whole : joined commaSpace (inlinePairsOf .tagged (.cons k v (.cons key next more))) ++
        ' ' :: '\x7d' :: tail = pair k (inlineChars .tagged v) ++ ',' :: ' ' ::
          (joined commaSpace (inlinePairsOf .tagged (.cons key next more)) ++
            ' ' :: '\x7d' :: tail) := by
      simp [inlinePairsOf, joined, commaSpace]
    rw [whole, Table.reread]
    exact pairMore (fresh k List.mem_cons_self) (inlineOpens plain.1) read others
end

end NotebookTidy.Toml
