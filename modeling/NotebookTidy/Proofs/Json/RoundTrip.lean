import Mathlib.Data.List.DropRight
import NotebookTidy.Proofs.Json.Floats

/-! A document is read as the value that was written, up to its numbers, and integers are read as
they were. Between the two stands the syntax tree that the document spells: its text is read as that
tree, and the tree means the value. -/
namespace NotebookTidy.Json

variable {fits : Number → Prop}

mutual
def Value.node : Value → Node
  | .null => .null
  | .bool b => .bool b
  | .number n => .number n.numeral
  | .string s => .string (some s)
  | .array vs => .array vs.nodes
  | .object ms => .object ms.fields
def Items.nodes : Items → Nodes
  | .nil => .nil
  | .cons v rest => .cons v.node rest.nodes
def Members.fields : Members → Fields
  | .nil => .nil
  | .cons k v rest => .cons (some k) v.node rest.fields
end

/-! Other numbers in the same places -/

mutual
def Value.renumber (g : Number → Number) : Value → Value
  | .number n => .number (g n)
  | .array vs => .array (vs.renumber g)
  | .object ms => .object (ms.renumber g)
  | .null => .null
  | .bool flag => .bool flag
  | .string s => .string s
def Items.renumber (g : Number → Number) : Items → Items
  | .nil => .nil
  | .cons v rest => .cons (v.renumber g) (rest.renumber g)
def Members.renumber (g : Number → Number) : Members → Members
  | .nil => .nil
  | .cons k v rest => .cons k (v.renumber g) (rest.renumber g)
end

theorem itemsRenumber (g : Number → Number) (vs : Items) :
    (vs.renumber g).toList = vs.toList.map (Value.renumber g) := by
  match vs with
  | .nil => rfl
  | .cons v rest =>
    rw [Items.renumber, Items.toList, Items.toList, List.map_cons, itemsRenumber g rest]

theorem membersRenumber (g : Number → Number) (ms : Members) :
    (ms.renumber g).toList = ms.toList.map fun m => (m.1, m.2.renumber g) := by
  match ms with
  | .nil => rfl
  | .cons k v rest =>
    rw [Members.renumber, Members.toList, Members.toList, List.map_cons, membersRenumber g rest]

theorem getRenumber (g : Number → Number) (ms : Members) (name : String) :
    (ms.renumber g).get? name = (ms.get? name).map (Value.renumber g) := by
  match ms with
  | .nil => rfl
  | .cons k v rest =>
    rw [Members.renumber, Members.get?, Members.get?]
    split
    · rfl
    · exact getRenumber g rest name

theorem sortedRenumber (g : Number → Number) {ms : Members} (sorted : Keyed.Sorted ms.toList) :
    Keyed.Sorted (ms.renumber g).toList := by
  have keys : Prod.fst ∘ (fun m : String × Value => (m.1, m.2.renumber g)) = Prod.fst := rfl
  rw [membersRenumber, Keyed.Sorted, List.map_map, keys]
  exact sorted

mutual
theorem renumberSame {g : Number → Number} (same : ∀ n, fits n → g n = n) {depth : Nat} :
    (v : Value) → v.Legible fits depth → v.renumber g = v
  | .null, _ | .bool _, _ | .string _, _ => rfl
  | .number n, legible => by rw [Value.renumber, same n legible]
  | .array vs, ⟨_, legible⟩ => by rw [Value.renumber, renumberItems same vs legible]
  | .object ms, ⟨_, _, legible⟩ => by rw [Value.renumber, renumberMembers same ms legible]
theorem renumberItems {g : Number → Number} (same : ∀ n, fits n → g n = n) {depth : Nat} :
    (vs : Items) → vs.Legible fits depth → vs.renumber g = vs
  | .nil, _ => rfl
  | .cons v rest, ⟨first, others⟩ => by
    rw [Items.renumber, renumberSame same v first, renumberItems same rest others]
theorem renumberMembers {g : Number → Number} (same : ∀ n, fits n → g n = n) {depth : Nat} :
    (ms : Members) → ms.Legible fits depth → ms.renumber g = ms
  | .nil, _ => rfl
  | .cons k v rest, ⟨first, others⟩ => by
    rw [Members.renumber, renumberSame same v first, renumberMembers same rest others]
end

/-! What the tree means -/

mutual
theorem nodeValue {depth : Nat} : (v : Value) → v.Legible Number.Held depth →
    v.node.value? depth = some (v.renumber Number.reread)
  | .null, _ => rfl
  | .bool _, _ => rfl
  | .string _, _ => rfl
  | .number n, legible => by
    rw [Value.node, Node.value?, numberReread legible, Option.map_some, Value.renumber]
  | .array vs, ⟨deep, legible⟩ => by
    rw [Value.node, Node.value?, if_neg (Nat.ne_of_gt deep), nodesValues vs legible,
      Option.map_some, Function.comp_apply, itemsOfList, Value.renumber]
  | .object ms, ⟨deep, sorted, legible⟩ => by
    rw [Value.node, Node.value?, if_neg (Nat.ne_of_gt deep), fieldsMembers ms legible,
      Option.map_some, Function.comp_apply, Members.ofListSorted (sortedRenumber _ sorted),
      Value.renumber]
theorem nodesValues {depth : Nat} : (vs : Items) → vs.Legible Number.Held depth →
    vs.nodes.values? depth = some (vs.renumber Number.reread).toList
  | .nil, _ => rfl
  | .cons v rest, ⟨first, others⟩ => by
    simp only [Items.nodes, Nodes.values?, nodeValue v first, nodesValues rest others,
      Option.bind_eq_bind, Option.bind_some, Items.renumber, Items.toList]
theorem fieldsMembers {depth : Nat} : (ms : Members) → ms.Legible Number.Held depth →
    ms.fields.members? depth = some (ms.renumber Number.reread).toList
  | .nil, _ => rfl
  | .cons k v rest, ⟨first, others⟩ => by
    simp only [Members.fields, Fields.members?, nodeValue v first, fieldsMembers rest others,
      Option.bind_eq_bind, Option.bind_some, Members.renumber, Members.toList]
end

/-! Space between the parts -/

theorem skipLine (level : Nat) (text : List Char) :
    skipSpace (newLine level ++ text) = skipSpace text := by
  have space : ∀ c ∈ newLine level, isSpace c = true := by
    intro c mem
    rcases List.mem_cons.mp mem with rfl | inside
    · decide
    · rw [List.eq_of_mem_replicate inside]
      decide
  exact List.dropWhile_append_of_pos space

theorem skipNone {c : Char} {more : List Char} (plain : isSpace c = false) :
    skipSpace (c :: more) = c :: more := by
  rw [skipSpace, List.dropWhile_cons, plain]
  rfl

theorem skipQuoted (level : Nat) (text tail : List Char) :
    skipSpace (newLine level ++ (quoted text ++ tail)) =
      '"' :: (text.flatMap escaped ++ '"' :: tail) := by
  rw [skipLine, quoted, List.append_assoc, List.cons_append, List.singleton_append,
    skipNone (by decide)]

theorem skipTwice (text : List Char) : skipSpace (skipSpace text) = skipSpace text :=
  List.dropWhile_idempotent ..

theorem elementsSkip (element : Read Node) (n : Nat) (text : List Char) :
    elements element (n + 1) (skipSpace text) = elements element (n + 1) text := by
  rw [elements, elements, skipTwice]

theorem fieldsSkip (element : Read Node) (n : Nat) (text : List Char) :
    fields element (n + 1) (skipSpace text) = fields element (n + 1) text := by
  rw [fields, skipTwice, fields]

/-! What the text spells -/

theorem nodeNumber (fuel : Nat) {c : Char} {more : List Char} (start : c = '-' ∨ isDigit c = true) :
    node (fuel + 1) (c :: more) =
      (numeral (c :: more)).map fun (n, next) => (.number n, next) := by
  unfold node
  split
  case h_7 => rfl
  all_goals
    rename_i same
    cases same
    exact absurd start (by decide)

theorem nodeArray (fuel : Nat) {text : List Char} {c : Char} {more : List Char}
    (start : skipSpace text = c :: more) (other : c ≠ ']') :
    node (fuel + 1) ('[' :: text) =
      (elements (node fuel) ((skipSpace text).length + 1) text).map fun (ns, next) =>
        (.array (.ofList ns), next) := by
  rw [node]
  split
  · rename_i same
    rw [start] at same
    cases same
    exact absurd rfl other
  · rw [elementsSkip]

theorem nodeObject (fuel : Nat) {text : List Char} {c : Char} {more : List Char}
    (start : skipSpace text = c :: more) (other : c ≠ '\x7d') :
    node (fuel + 1) ('\x7b' :: text) =
      (fields (node fuel) ((skipSpace text).length + 1) text).map fun (fs, next) =>
        (.object (.ofList fs), next) := by
  rw [node]
  split
  · rename_i same
    rw [start] at same
    cases same
    exact absurd rfl other
  · rw [fieldsSkip]

theorem charsStart {v : Value} {depth : Nat} (legible : v.Legible Number.Held depth) (level : Nat) :
    ∃ c more, v.chars level = c :: more ∧ isSpace c = false ∧ c ≠ ']' := by
  cases v with
  | null => exact ⟨'n', _, rfl, by decide, by decide⟩
  | bool b =>
    cases b with
    | true => exact ⟨'t', _, rfl, by decide, by decide⟩
    | false => exact ⟨'f', _, rfl, by decide, by decide⟩
  | string s => exact ⟨'"', _, rfl, by decide, by decide⟩
  | number n =>
    obtain ⟨c, more, start, digit⟩ := numberStart legible
    have apart (d : Char) (other : ¬ (d = '-' ∨ isDigit d = true)) : c ≠ d :=
      fun same => other (same ▸ digit)
    have blank := apart ' ' (by decide)
    have line := apart '\n' (by decide)
    have tab := apart '\t' (by decide)
    have return_ := apart '\r' (by decide)
    exact ⟨c, more, start, by simp [isSpace, blank, line, tab, return_], apart ']' (by decide)⟩
  | array vs =>
    cases vs <;> exact ⟨'[', _, rfl, by decide, by decide⟩
  | object ms =>
    cases ms <;> exact ⟨'\x7b', _, rfl, by decide, by decide⟩

/-- A reader of nodes, once it has skipped the space, reads a value off its characters. -/
def Reads (element : Read Node) (level : Nat) (v : Value) : Prop :=
  ∀ rest, Ends rest → element (skipSpace (v.chars level ++ rest)) = some (v.node, rest)

theorem itemsEnd (vs : Items) (level outer : Nat) (next : List Char) :
    Ends (vs.chars level ++ (newLine outer ++ next)) := by
  intro c first
  cases vs <;> (cases first; simp)

theorem membersEnd (ms : Members) (level outer : Nat) (next : List Char) :
    Ends (ms.chars level ++ (newLine outer ++ next)) := by
  intro c first
  cases ms <;> (cases first; simp)

theorem itemsLength (level : Nat) (vs : Items) : vs.toList.length ≤ (vs.chars level).length := by
  match vs with
  | .nil => exact Nat.zero_le _
  | .cons v rest =>
    have fewer := itemsLength level rest
    simp only [Items.toList, Items.chars, List.length_append, List.length_cons]
    omega

theorem membersLength (level : Nat) (ms : Members) :
    ms.toList.length ≤ (ms.chars level).length := by
  match ms with
  | .nil => exact Nat.zero_le _
  | .cons k v rest =>
    have fewer := membersLength level rest
    simp only [Members.toList, Members.chars, List.length_append, List.length_cons]
    omega

theorem elementsNext {element : Read Node} {n : Nat} {text rest : List Char} {read : Node}
    (first : element (skipSpace text) = some (read, rest)) :
    elements element (n + 1) text =
      match skipSpace rest with
      | ',' :: more => (elements element n more).bind fun (ns, next) => some (read :: ns, next)
      | ']' :: next => some ([read], next)
      | _ => none := by
  rw [elements, first]
  rfl

theorem elementsRead {element : Read Node} {level : Nat} (outer : Nat) (next : List Char)
    (v : Value) (rest : Items) (first : Reads element level v)
    (others : ∀ w ∈ rest.toList, Reads element level w) {count : Nat}
    (counted : rest.toList.length < count) :
    elements element count
        (newLine level ++ (v.chars level ++ (rest.chars level ++ (newLine outer ++ ']' :: next)))) =
      some (v.node :: rest.nodes.toList, next) := by
  obtain ⟨count, rfl⟩ : ∃ n, count = n + 1 := ⟨count - 1, by omega⟩
  have read := first _ (itemsEnd rest level outer (']' :: next))
  rw [← skipLine level] at read
  rw [elementsNext read]
  match rest with
  | .nil =>
    have close : skipSpace (Items.nil.chars level ++ (newLine outer ++ ']' :: next)) =
        ']' :: next := by
      rw [Items.chars, List.nil_append, skipLine, skipNone (by decide)]
    rw [close]
    rfl
  | .cons w more =>
    obtain ⟨second, later⟩ := List.forall_mem_cons.mp others
    have tail := elementsRead outer next w more second later (Nat.lt_of_succ_lt_succ counted)
    have comma : skipSpace ((Items.cons w more).chars level ++ (newLine outer ++ ']' :: next)) =
        ',' :: (newLine level ++
          (w.chars level ++ (more.chars level ++ (newLine outer ++ ']' :: next)))) := by
      simp only [Items.chars, List.cons_append, List.append_assoc]
      exact skipNone (by decide)
    rw [comma]
    change (elements element count _).bind _ = _
    rw [tail]
    rfl

theorem fieldsNext {element : Read Node} {n : Nat} {text start middle rest : List Char}
    {name : Option String} {read : Node} (open_ : skipSpace text = '"' :: start)
    (named : string start = some (name, ':' :: middle))
    (first : element (skipSpace middle) = some (read, rest)) :
    fields element (n + 1) text =
      match skipSpace rest with
      | ',' :: more =>
        (fields element n more).bind fun (fs, next) => some ((name, read) :: fs, next)
      | '\x7d' :: next => some ([(name, read)], next)
      | _ => none := by
  have colon : skipSpace (':' :: middle) = ':' :: middle := skipNone (by decide)
  rw [fields, open_]
  change (string start).bind _ = _
  rw [named, Option.bind_some]
  dsimp only
  rw [colon]
  change (element (skipSpace middle)).bind _ = _
  rw [first, Option.bind_some]
  rfl

theorem fieldsRead {element : Read Node} {level : Nat} (outer : Nat) (next : List Char)
    (k : String) (v : Value) (rest : Members) (first : Reads element level v)
    (others : ∀ m ∈ rest.toList, Reads element level m.2) {count : Nat}
    (counted : rest.toList.length < count) :
    fields element count
        (newLine level ++ (quoted k.toList ++ (':' :: ' ' :: (v.chars level ++
          (rest.chars level ++ (newLine outer ++ '\x7d' :: next)))))) =
      some ((some k, v.node) :: rest.fields.toList, next) := by
  obtain ⟨count, rfl⟩ : ∃ n, count = n + 1 := ⟨count - 1, by omega⟩
  have read : element (skipSpace (' ' ::
      (v.chars level ++ (rest.chars level ++ (newLine outer ++ '\x7d' :: next))))) =
        some (v.node, rest.chars level ++ (newLine outer ++ '\x7d' :: next)) :=
    first _ (membersEnd rest level outer ('\x7d' :: next))
  have named (tail : List Char) := stringQuoted k.toList tail
  rw [String.ofList_toList] at named
  rw [fieldsNext (skipQuoted level _ _) (named _) read]
  match rest with
  | .nil =>
    have close : skipSpace (Members.nil.chars level ++ (newLine outer ++ '\x7d' :: next)) =
        '\x7d' :: next := by
      rw [Members.chars, List.nil_append, skipLine, skipNone (by decide)]
    rw [close]
    rfl
  | .cons name w more =>
    obtain ⟨second, later⟩ := List.forall_mem_cons.mp others
    have tail := fieldsRead outer next name w more second later (Nat.lt_of_succ_lt_succ counted)
    have comma : skipSpace ((Members.cons name w more).chars level ++
          (newLine outer ++ '\x7d' :: next)) =
        ',' :: (newLine level ++ (quoted name.toList ++ (':' :: ' ' :: (w.chars level ++
          (more.chars level ++ (newLine outer ++ '\x7d' :: next)))))) := by
      simp only [Members.chars, List.cons_append, List.append_assoc, List.nil_append]
      exact skipNone (by decide)
    rw [comma]
    change (fields element count _).bind _ = _
    rw [tail]
    rfl

theorem readsPlain {element : Read Node} {level depth : Nat} {v : Value}
    (legible : v.Legible Number.Held depth)
    (read : ∀ rest, Ends rest → element (v.chars level ++ rest) = some (v.node, rest)) :
    Reads element level v := by
  intro rest ends
  obtain ⟨c, more, start, plain, -⟩ := charsStart legible level
  have whole := read rest ends
  rw [start, List.cons_append] at whole ⊢
  rwa [skipNone plain]

theorem nodesOfList (ns : Nodes) : .ofList ns.toList = ns := by
  match ns with
  | .nil => rfl
  | .cons n rest => rw [Nodes.toList, Nodes.ofList, nodesOfList rest]

theorem fieldsOfList (fs : Fields) : .ofList fs.toList = fs := by
  match fs with
  | .nil => rfl
  | .cons k n rest => rw [Fields.toList, Fields.ofList, fieldsOfList rest]

theorem arrayRead {fuel level depth : Nat} {v : Value} {others : Items}
    (legible : v.Legible Number.Held depth) (first : Reads (node fuel) (level + 1) v)
    (later : ∀ w ∈ others.toList, Reads (node fuel) (level + 1) w) (rest : List Char) :
    node (fuel + 1) ((Value.array (.cons v others)).chars level ++ rest) =
      some ((Value.array (.cons v others)).node, rest) := by
  have text : (Value.array (.cons v others)).chars level ++ rest =
      '[' :: (newLine (level + 1) ++ (v.chars (level + 1) ++
        (others.chars (level + 1) ++ (newLine level ++ ']' :: rest)))) := by
    simp [Value.chars]
  obtain ⟨c, more, start, plain, close⟩ := charsStart legible (level + 1)
  have lead (tail : List Char) : skipSpace (newLine (level + 1) ++ (v.chars (level + 1) ++ tail)) =
      c :: (more ++ tail) := by
    rw [skipLine, start, List.cons_append, skipNone plain]
  have fewer := itemsLength (level + 1) others
  rw [text, nodeArray fuel (lead _) close, lead, elementsRead level rest v others first later]
  · rw [Option.map_some]
    dsimp only
    rw [Nodes.ofList, nodesOfList]
    rfl
  · simp only [List.length_append, List.length_cons]
    omega

theorem objectRead {fuel level : Nat} {k : String} {v : Value} {others : Members}
    (first : Reads (node fuel) (level + 1) v)
    (later : ∀ m ∈ others.toList, Reads (node fuel) (level + 1) m.2) (rest : List Char) :
    node (fuel + 1) ((Value.object (.cons k v others)).chars level ++ rest) =
      some ((Value.object (.cons k v others)).node, rest) := by
  have text : (Value.object (.cons k v others)).chars level ++ rest =
      '\x7b' :: (newLine (level + 1) ++ (quoted k.toList ++ (':' :: ' ' :: (v.chars (level + 1) ++
        (others.chars (level + 1) ++ (newLine level ++ '\x7d' :: rest)))))) := by
    simp [Value.chars]
  have fewer := membersLength (level + 1) others
  rw [text, nodeObject fuel (skipQuoted (level + 1) _ _) (by decide), skipQuoted,
    fieldsRead level rest k v others first later]
  · rw [Option.map_some]
    dsimp only
    rw [Fields.ofList, fieldsOfList]
    rfl
  · simp only [List.length_append, List.length_cons]
    omega

mutual
-- The fuel is spent on brackets, and the text of a value is longer than that of any part of it.
theorem valueReads {depth level fuel : Nat} : (v : Value) → v.Legible Number.Held depth →
    (v.chars level).length ≤ fuel + 1 → Reads (node (fuel + 1)) level v
  | .null, legible, _ => readsPlain legible fun _ _ => rfl
  | .bool true, legible, _ => readsPlain legible fun _ _ => rfl
  | .bool false, legible, _ => readsPlain legible fun _ _ => rfl
  | .string s, legible, _ => by
    refine readsPlain legible fun rest _ => ?_
    rw [Value.chars, quoted, List.append_assoc, List.cons_append, node, List.singleton_append,
      stringQuoted, String.ofList_toList]
    rfl
  | .number n, legible, _ => by
    refine readsPlain legible fun rest ends => ?_
    obtain ⟨c, more, start, digit⟩ := numberStart legible
    rw [Value.chars, start, List.cons_append, nodeNumber fuel digit, ← List.cons_append, ← start,
      numeralRead legible rest ends]
    rfl
  | .array .nil, legible, _ => readsPlain legible fun _ _ => rfl
  | .array (.cons v others), legible, enough => by
    simp only [Value.chars, List.length_append, List.length_cons, newLine] at enough
    obtain ⟨fuel, rfl⟩ : ∃ n, fuel = n + 1 := ⟨fuel - 1, by omega⟩
    have ⟨_, first, later⟩ := legible
    exact readsPlain legible fun rest _ => arrayRead first (valueReads v first (by omega))
      (itemsRead others later (by omega)) rest
  | .object .nil, legible, _ => readsPlain legible fun _ _ => rfl
  | .object (.cons k v others), legible, enough => by
    simp only [Value.chars, List.length_append, List.length_cons, newLine] at enough
    obtain ⟨fuel, rfl⟩ : ∃ n, fuel = n + 1 := ⟨fuel - 1, by omega⟩
    have ⟨_, _, first, later⟩ := legible
    exact readsPlain legible fun rest _ => objectRead (valueReads v first (by omega))
      (membersRead others later (by omega)) rest
theorem itemsRead {depth level fuel : Nat} : (vs : Items) → vs.Legible Number.Held depth →
    (vs.chars level).length ≤ fuel + 1 → ∀ v ∈ vs.toList, Reads (node (fuel + 1)) level v
  | .nil, _, _ => by simp [Items.toList]
  | .cons v rest, ⟨first, others⟩, enough => by
    simp only [Items.chars, List.length_append, List.length_cons] at enough
    exact List.forall_mem_cons.mpr
      ⟨valueReads v first (by omega), itemsRead rest others (by omega)⟩
theorem membersRead {depth level fuel : Nat} : (ms : Members) → ms.Legible Number.Held depth →
    (ms.chars level).length ≤ fuel + 1 → ∀ m ∈ ms.toList, Reads (node (fuel + 1)) level m.2
  | .nil, _, _ => by simp [Members.toList]
  | .cons k v rest, ⟨first, others⟩, enough => by
    simp only [Members.chars, List.length_append, List.length_cons] at enough
    exact List.forall_mem_cons.mpr
      ⟨valueReads v first (by omega), membersRead rest others (by omega)⟩
end

theorem parseDocument {v : Value} (legible : v.Legible Number.Held depthLimit) :
    parse? v.document = some v.node := by
  have line : Ends ['\n'] := by
    rintro c ⟨⟩
    exact .inl rfl
  have space : skipSpace ['\n'] = [] := by decide
  have enough : (v.chars 0).length ≤ (v.chars 0 ++ ['\n']).length + 1 := by
    rw [List.length_append]
    omega
  have whole := valueReads v legible enough _ line
  rw [parse?, Value.document, String.toList_ofList]
  simp only [whole, Option.bind_eq_bind, Option.bind_some, space]
  rfl

theorem readDocument {v : Value} (legible : v.Legible Number.Held depthLimit) :
    read? v.document = some (v.renumber Number.reread) := by
  rw [read?, parseDocument legible, Option.bind_eq_bind, Option.bind_some, nodeValue v legible]

theorem readIntegral {v : Value} (legible : v.Legible Number.Integral depthLimit) :
    read? v.document = some v := by
  rw [readDocument (legibleMono v (fun _ _ => integralHeld) legible),
    renumberSame (fun _ => integralReread) v legible]

end NotebookTidy.Json
