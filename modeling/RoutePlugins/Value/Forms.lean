import RoutePlugins.Fault

/-!
# Forms of dynamic values

The form in which a store keeps a value, the document that is written for a value, and the elements
that a value is made of when something runs over it.
-/

namespace RoutePlugins

namespace Json

/-- A whole number that does not have too many digits to be written or read. -/
def FewDigits (n : Int) : Prop := (Nat.toDigits 10 n.natAbs).length ≤ maxDigits

instance (n : Int) : Decidable (FewDigits n) := inferInstanceAs (Decidable (_ ≤ _))

mutual

/-- What is wrong with the first number of a value that cannot be written. -/
def flaw? : Json → Option NotJson
  | .int n => if FewDigits n then none else some .digits
  | .float d => if d.isFinite then none else some .outOfRange
  | .arr items => flawItems? items
  | .obj fields => flawFields? fields
  | _ => none

/-- What is wrong with the first number of some items that cannot be written. -/
def flawItems? : List Json → Option NotJson
  | [] => none
  | v :: rest => (flaw? v).or (flawItems? rest)

/-- What is wrong with the first number of some fields that cannot be written. -/
def flawFields? : List (Text × Json) → Option NotJson
  | [] => none
  | (_, v) :: rest => (flaw? v).or (flawFields? rest)

end

end Json

namespace Value

mutual

/-- The JSON form of a value whose lists and maps lie at most `depth` deep in one another; one that
has none is refused with `refusal`. -/
def form (refusal : NotJson) : Nat → Value → Except NotJson Json
  | _, .null => .ok .null
  | _, .bool b => .ok (.bool b)
  | _, .int n => .ok (.int n)
  | _, .float d => .ok (.float d)
  | _, .str s => .ok (.str s)
  | 0, .list _ | 0, .map _ => .error .depth
  | depth + 1, .list items => do return .arr (← formItems refusal depth items)
  | depth + 1, .map entries => do return .obj (← formFields refusal depth entries)
  | _, _ => .error refusal

/-- The JSON forms of the items of a list. -/
def formItems (refusal : NotJson) (depth : Nat) : List Value → Except NotJson (List Json)
  | [] => .ok []
  | v :: rest => do
    let j ← form refusal depth v
    return j :: (← formItems refusal depth rest)

/-- The JSON forms of the entries of a map. -/
def formFields (refusal : NotJson) (depth : Nat) :
    List (Value × Value) → Except NotJson (List (Text × Json))
  | [] => .ok []
  | (.str k, v) :: rest => do
    let j ← form refusal depth v
    return (k, j) :: (← formFields refusal depth rest)
  | _ :: _ => .error refusal

end

/-- The kept form of a value that lies at most `depth` deep: its JSON form, provided all numbers in
it can be written. It is what is read from the document of the value, where the halves of a pair are
one character. -/
def keepWithin (depth : Nat) (v : Value) : Except NotJson Json := do
  let j ← v.form (.kind v.kindName) depth
  match j.flaw? with
  | some flaw => .error flaw
  | none => .ok j.joined

/-- How deep the values may lie that are kept for a phase: each level takes three calls, and this is
what is left of the thousand calls that may be open when a phase hands over a value. -/
def maxDepth : Nat := 327

/-- The kept form of a value that a phase hands over. -/
def keep (v : Value) : Except NotJson Json := v.keepWithin maxDepth

/-- The kept form of what was built. It is looked at when the phase is over, so that there are calls
left for one level more. -/
def keepBuilt (v : Value) : Except NotJson Json := v.keepWithin (maxDepth + 1)

/-- The text of a key in a document. -/
def documentKey : Value → Except Fault Text
  | .str s => .ok s
  | .float d => .ok (.ofChars (d.text ⟨"NaN", "Infinity"⟩))
  | .bool true => .ok "true"
  | .bool false => .ok "false"
  | .null => .ok "null"
  | .int n => .ok (toString n)
  | v => .error (.kind (.documentKey v.kindName))

mutual

/-- The document of a value: tuples become lists, and keys become texts. -/
def document : Value → Except Fault Json
  | .null => .ok .null
  | .bool b => .ok (.bool b)
  | .int n => .ok (.int n)
  | .float d => .ok (.float d)
  | .str s => .ok (.str s)
  | .list items | .tuple items => do return .arr (← documentItems items)
  | .map entries => do return .obj (← documentFields entries)
  | .bytes _ => .error (.kind (.notDocument "bytes"))
  | .set _ => .error (.kind (.notDocument "set"))
  | .parsed _ => .error (.kind (.notDocument "ParsedFile"))
  | .object name => .error (.kind (.notDocument name))

/-- The documents of the items of a list. -/
def documentItems : List Value → Except Fault (List Json)
  | [] => .ok []
  | v :: rest => do
    let j ← document v
    return j :: (← documentItems rest)

/-- The documents of the entries of a map. -/
def documentFields : List (Value × Value) → Except Fault (List (Text × Json))
  | [] => .ok []
  | (k, v) :: rest => do
    let name ← documentKey k
    let j ← document v
    return (name, j) :: (← documentFields rest)

end

/-- The code points of a text as values. -/
def pointItems (s : Text) : List Value := s.points.map fun p => .str ⟨[p]⟩

/-- What running over a value gives in turn: the code points of a text, the keys of a map. -/
def elements : Value → Except Fault (List Value)
  | .list items | .tuple items | .set items => .ok items
  | .str s => .ok (pointItems s)
  | .bytes b => .ok (b.map fun x => .int x.toNat)
  | .map entries => .ok (entries.map Prod.fst)
  | v => .error (.kind (.notIterable v.kindName))

/-- The value of a field of a record. -/
def member (key : Text) : Value → Except Fault Value
  | .map entries =>
    match entry? key entries with
    | some v => .ok v
    | none => .error (.missingKey (.str key))
  | .list _ => .error (.kind (.numbered "list"))
  | .tuple _ => .error (.kind (.numbered "tuple"))
  | .bytes _ => .error (.kind (.numbered "byte"))
  | .str _ => .error (.kind .textIndex)
  | v => .error (.kind (.notIndexable v.kindName))

/-- The fields of a record, or the fault that it has no `method`. -/
def asRecord (method : Text) : Value → Except Fault (List (Value × Value))
  | .map entries => .ok entries
  | v => .error (.noMember v.kindName method)

mutual

/-- Whether two keys of a map are one. -/
def sameKey : Value → Value → Bool
  | .bytes x, .bytes y => x == y
  | .tuple xs, .tuple ys => sameKeys xs ys
  | a, b =>
    match a.toJson?, b.toJson? with
    | some x, some y => x.same y
    | _, _ => false

/-- Whether the keys of two lists are the same, one by one. -/
def sameKeys : List Value → List Value → Bool
  | [], [] => true
  | x :: xs, y :: ys => sameKey x y && sameKeys xs ys
  | _, _ => false

end

/-- Whether a text is in a value: a word in a text, or one of the elements of anything else. -/
def holds (word : Text) : Value → Except Fault Bool
  | .str s => .ok (s.holds word)
  | .bytes _ => .error (.kind .notBytes)
  | v =>
    match v.elements with
    | .ok items => .ok (items.any (sameKey · (.str word)))
    | .error _ => .error (.kind (.notSearchable v.kindName))

/-- Set the value of a key. A key that is there keeps its place and its form. -/
def insertEntry (key value : Value) : List (Value × Value) → List (Value × Value)
  | [] => [(key, value)]
  | (k, v) :: rest =>
    if sameKey k key then (k, value) :: rest else (k, v) :: insertEntry key value rest

/-- Set every entry of `new` in turn. -/
def updateEntries (entries new : List (Value × Value)) : List (Value × Value) :=
  new.foldl (fun m e => insertEntry e.1 e.2 m) entries

mutual

/-- The kind of what keeps a value from being a key: a list, a set or a map, also in a tuple. -/
def keyFlaw? : Value → Option Text
  | .list _ => some "list"
  | .set _ => some "set"
  | .map _ => some "dict"
  | .tuple items => keyFlawIn? items
  | _ => none

/-- The kind of the first item that cannot be a key. -/
def keyFlawIn? : List Value → Option Text
  | [] => none
  | v :: rest => keyFlaw? v <|> keyFlawIn? rest

end

/-- Refuse a value that cannot be a key. -/
def checkKey (v : Value) : Except Fault Unit :=
  match v.keyFlaw? with
  | some kindName => .error (.kind (.unhashable kindName))
  | none => .ok ()

/-- The pair that the element with this index writes. -/
def pairOf (index : Nat) (v : Value) : Except Fault (Value × Value) :=
  match v.elements with
  | .error _ => .error (.kind (.pairNotSequence index))
  | .ok [k, x] => do
    checkKey k
    return (k, x)
  | .ok items => .error (.range (.pairLength index items.length))

/-- The pairs that elements write, the first of which has this index. -/
def pairsFrom (index : Nat) : List Value → Except Fault (List (Value × Value))
  | [] => .ok []
  | v :: rest => do
    let pair ← pairOf index v
    return pair :: (← pairsFrom (index + 1) rest)

/-- The entries that a value writes: those of a map, or pairs in a row. -/
def toEntries : Value → Except Fault (List (Value × Value))
  | .map entries => .ok entries
  | v => do return updateEntries [] (← pairsFrom 0 (← v.elements))

end Value

end RoutePlugins
