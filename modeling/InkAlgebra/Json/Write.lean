import InkAlgebra.Json.Basic

/-!
# Writing JSON

Two layouts: compact, without any blanks, and pretty, with one member a line and two blanks of
indent a level. An empty list or object takes no line of its own. Fields are written in their order;
`sorted` puts them into the order of their keys, at every level.
-/

namespace InkAlgebra.Json

def quoted (escaped : List Char) : List Char := '"' :: escaped ++ ['"']

def compact : Json → List Char
  | null => "null".toList
  | bool b => (if b then "true" else "false").toList
  | number lexeme => lexeme
  | string escaped => quoted escaped
  | array items => '[' :: compactItems items ++ [']']
  | object fields => '\x7b' :: compactFields fields ++ ['\x7d']
where
  compactItems : List Json → List Char
    | [] => []
    | [v] => compact v
    | v :: w :: rest => compact v ++ ',' :: compactItems (w :: rest)
  compactFields : List (List Char × Json) → List Char
    | [] => []
    | [(key, v)] => quoted key ++ ':' :: compact v
    | (key, v) :: field :: rest =>
      quoted key ++ ':' :: compact v ++ ',' :: compactFields (field :: rest)

/-- A line end and the indent of a level. -/
def newLine (level : Nat) : List Char := '\n' :: List.replicate (2 * level) ' '

/-- Pretty text, for a value at a level. -/
def pretty (level : Nat) : Json → List Char
  | null => "null".toList
  | bool b => (if b then "true" else "false").toList
  | number lexeme => lexeme
  | string escaped => quoted escaped
  | array [] => "[]".toList
  | array (v :: rest) =>
    '[' :: prettyItems (level + 1) (v :: rest) ++ newLine level ++ [']']
  | object [] => ['\x7b', '\x7d']
  | object (field :: rest) =>
    '\x7b' :: prettyFields (level + 1) (field :: rest) ++ newLine level ++ ['\x7d']
where
  prettyItems (level : Nat) : List Json → List Char
    | [] => []
    | [v] => newLine level ++ pretty level v
    | v :: w :: rest => newLine level ++ pretty level v ++ ',' :: prettyItems level (w :: rest)
  prettyFields (level : Nat) : List (List Char × Json) → List Char
    | [] => []
    | [(key, v)] => newLine level ++ quoted key ++ ':' :: ' ' :: pretty level v
    | (key, v) :: field :: rest =>
      newLine level ++ quoted key ++ ':' :: ' ' :: pretty level v ++
        ',' :: prettyFields level (field :: rest)

/-- The value with the fields of every object in the order of their keys. -/
def sorted : Json → Json
  | array items => array (sortedItems items)
  | object fields => object ((sortedFields fields).mergeSort fun a b => a.1 ≤ b.1)
  | v => v
where
  sortedItems : List Json → List Json
    | [] => []
    | v :: rest => sorted v :: sortedItems rest
  sortedFields : List (List Char × Json) → List (List Char × Json)
    | [] => []
    | (key, v) :: rest => (key, sorted v) :: sortedFields rest

end InkAlgebra.Json
