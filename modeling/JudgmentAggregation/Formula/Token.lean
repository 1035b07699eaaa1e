import JudgmentAggregation.Formula.Basic

/-!
# The tokens of formula texts

A text is cut into the arrow `->`, the symbols `~ & | ( )` and atoms, an atom being a maximal run
of ASCII letters and digits. Blanks, which are the characters of the Unicode property
`White_Space`, may stand around any token. `scan?` lists the tokens with their byte offsets, or
gives the first character that starts no token, with its offset.
-/

namespace JudgmentAggregation

/-- A token of a formula text. -/
inductive Token where
  | atom (name : String)
  | not
  | and
  | or
  | implies
  | leftParen
  | rightParen
deriving DecidableEq, Inhabited

namespace Token

/-- The way error messages mention a token. -/
def describe : Token → String
  | .atom name => "atom \"" ++ name ++ "\""
  | .not => "\"~\""
  | .and => "\"&\""
  | .or => "\"|\""
  | .implies => "\"->\""
  | .leftParen => "\"(\""
  | .rightParen => "\")\""

/-- Atoms are made of the ASCII letters and digits. -/
def isAtomChar (c : Char) : Bool :=
  c.isAlphanum

/-- The characters of the Unicode property `White_Space`. -/
def isBlank (c : Char) : Bool :=
  let n := c.toNat
  (0x9 ≤ n && n ≤ 0xD) || n == 0x20 || n == 0x85 || n == 0xA0 || n == 0x1680 ||
    (0x2000 ≤ n && n ≤ 0x200A) || n == 0x2028 || n == 0x2029 || n == 0x202F || n == 0x205F ||
    n == 0x3000

/-- The token that a single character stands for, if it does. -/
def symbol? : Char → Option Token
  | '~' => some .not
  | '&' => some .and
  | '|' => some .or
  | '(' => some .leftParen
  | ')' => some .rightParen
  | _ => none

/-- A token at a byte offset of the text. -/
structure Located where
  position : Nat
  token : Token
deriving DecidableEq, Inhabited

/-- Ends the atom that was being read, if there was one: `word` holds its characters, the last one
first, and `position` is the offset behind it. -/
def endWord (position : Nat) (word : List Char) (done : List Located) : List Located :=
  if word.isEmpty then done
  else ⟨position - word.length, .atom (String.ofList word.reverse)⟩ :: done

/-- Reads on at a byte offset, in the atom whose last characters are `word`, with the tokens before
it, the last one first. -/
def scanFrom? (position : Nat) (word : List Char) (done : List Located) :
    List Char → Except (Nat × Char) (List Located)
  | [] => .ok (endWord position word done).reverse
  | '-' :: '>' :: cs =>
    scanFrom? (position + 2) [] (⟨position, .implies⟩ :: endWord position word done) cs
  | c :: cs =>
    if isAtomChar c then scanFrom? (position + 1) (c :: word) done cs
    else if isBlank c then scanFrom? (position + c.utf8Size) [] (endWord position word done) cs
    else match symbol? c with
      | some t => scanFrom? (position + 1) [] (⟨position, t⟩ :: endWord position word done) cs
      | none => .error (position, c)

/-- The tokens of a text, or the first character that starts no token. -/
def scan? (text : String) : Except (Nat × Char) (List Located) :=
  scanFrom? 0 [] [] text.toList

end Token

end JudgmentAggregation
