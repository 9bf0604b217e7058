import CpuScheduling.Decimal.Shortest

/-!
JSON as it is written for readers: each item and each member on a line of its own,
two spaces deeper than what it belongs to.
-/

namespace CpuScheduling.Json

inductive Tree where
  | null
  | natural (value : Nat)
  | double (value : Float)
  | word (text : String)
  | array (items : List Tree)
  | object (members : List (String × Tree))

def Tree.ofOption : Option Nat → Tree
  | none => null
  | some value => natural value

def quote (text : String) : String :=
  "\"" ++ text ++ "\""

mutual

def Tree.writeTo (indent out : String) : Tree → String
  | .null => out ++ "null"
  | .natural value => out ++ toString value
  | .double value => out ++ Decimal.shortest value
  | .word text => out ++ quote text
  | .array [] => out ++ "[]"
  | .array (first :: rest) =>
      let inner := indent ++ "  "
      writeItems inner (first.writeTo inner (out ++ "[\n" ++ inner)) rest ++
        "\n" ++ indent ++ "]"
  | .object [] => out ++ "\x7b\x7d"
  | .object ((key, first) :: rest) =>
      let inner := indent ++ "  "
      writeMembers inner (first.writeTo inner (out ++ "\x7b\n" ++ inner ++ quote key ++ ": "))
        rest ++ "\n" ++ indent ++ "\x7d"

def writeItems (indent out : String) : List Tree → String
  | [] => out
  | item :: rest => writeItems indent (item.writeTo indent (out ++ ",\n" ++ indent)) rest

def writeMembers (indent out : String) : List (String × Tree) → String
  | [] => out
  | (key, value) :: rest =>
      writeMembers indent (value.writeTo indent (out ++ ",\n" ++ indent ++ quote key ++ ": "))
        rest

end

def Tree.pretty (tree : Tree) : String :=
  tree.writeTo "" ""

end CpuScheduling.Json
