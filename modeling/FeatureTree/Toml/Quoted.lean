import FeatureTree.Value.Json

/-!
# Strings of TOML

TOML has four kinds of string: basic ones with escapes and literal ones without, each on one line
or, behind a triple quote, on many. The end of a line right after a triple quote does not count. A
many-line string can end in one or two quotes of its own before the closing three. A carriage return
stands only before a line feed, or in the white space that a backslash takes away.

## Main results

* `Toml.Quoted.string_of_empty`: two quotes that no third one follows are an empty string
-/

namespace FeatureTree

namespace Toml

/-- Whether a control character is refused in strings and comments. -/
def isControl (c : Char) : Bool := c.toNat = 0x7F || (c.toNat ≤ 0x1F && c != '\t')

/-- Whether a character is white space or the end of a line. -/
def isSpaceOrEnd (c : Char) : Bool := c = ' ' || c = '\t' || c = '\n' || c = '\r'

/-- Whether a line ends here: with a line feed, before which there may be a carriage return. -/
def startsLineEnd : Text → Bool
  | '\n' :: _ => true
  | '\r' :: '\n' :: _ => true
  | _ => false

namespace Quoted

/-- The character of a short escape. -/
def shortEscape? : Char → Option Char
  | 'b' => some (Char.ofNat 8)
  | 't' => some '\t'
  | 'n' => some '\n'
  | 'f' => some (Char.ofNat 12)
  | 'r' => some '\r'
  | 'e' => some (Char.ofNat 27)
  | '"' => some '"'
  | '\\' => some '\\'
  | _ => none

/-- The character that hexadecimal digits name, if they name one. -/
def namedChar? (digits : Text) : Option Char := do
  let n ← digits.foldlM (fun n d => (Json.hexValue? d).map (16 * n + ·)) 0
  if n < 0xD800 || (0xDFFF < n && n < 0x110000) then some (Char.ofNat n) else none

/-- The number of hexadecimal digits behind the letter of an escape that names a character. -/
def escapeWidth? : Char → Option Nat
  | 'x' => some 2
  | 'u' => some 4
  | 'U' => some 8
  | _ => none

/-- Reads what follows a backslash. -/
def escape? : Text → Option (Char × Text)
  | [] => none
  | c :: t =>
    match escapeWidth? c with
    | some n => if t.length < n then none else (namedChar? (t.take n)).map (·, t.drop n)
    | none => (shortEscape? c).map (·, t)

/-- Puts text in front of what was read. -/
def withText (t : Text) (r : Text × Text) : Text × Text := (t ++ r.1, r.2)

/-- Reads a string on one line up to its closing quote. The first argument bounds its length. -/
def singleLine? (quote : Char) : Nat → Text → Option (Text × Text)
  | 0, _ => none
  | _, [] => none
  | n + 1, c :: t =>
    if c = quote then some ([], t)
    else if isControl c then none
    else if c = '\\' && quote = '"' then
      match escape? t with
      | some (e, t) => (singleLine? quote n t).map (withText [e])
      | none => none
    else (singleLine? quote n t).map (withText [c])

/-- Reads a string on many lines up to its closing quotes. A backslash before the end of a line
takes all white space after it away. The first argument bounds the length. -/
def manyLines? (quote : Char) : Nat → Text → Option (Text × Text)
  | 0, _ => none
  | _, [] => none
  | n + 1, c :: t =>
    if c = quote then
      let run := 1 + (t.takeWhile (· = quote)).length
      let rest := t.dropWhile (· = quote)
      if run < 3 then (manyLines? quote n rest).map (withText (List.replicate run quote))
      else if run < 6 then some (List.replicate (run - 3) quote, rest)
      else none
    else if isControl c && !startsLineEnd (c :: t) then none
    else if c = '\\' && quote = '"' then
      match t.takeWhile isSpaceOrEnd with
      | [] =>
        match escape? t with
        | some (e, t) => (manyLines? quote n t).map (withText [e])
        | none => none
      | blanks =>
        if blanks.contains '\n' then manyLines? quote n (t.drop blanks.length) else none
    else (manyLines? quote n t).map (withText [c])

/-- Drops the end of a line right after a triple quote. -/
def dropFirstEnd : Text → Text
  | '\n' :: t => t
  | '\r' :: '\n' :: t => t
  | t => t

/-- Reads a string after its first quote. -/
def string? (quote : Char) (t : Text) : Option (Text × Text) :=
  match t with
  | c :: rest =>
    if c = quote then
      match rest with
      | d :: rest' =>
        if d = quote then manyLines? quote (t.length + 1) (dropFirstEnd rest') else some ([], rest)
      | [] => some ([], [])
    else singleLine? quote (t.length + 1) t
  | [] => none

/-- Whether a string opens with a triple quote, given the text after its first quote. -/
def opensManyLines (quote : Char) (t : Text) : Bool := [quote, quote].isPrefixOf t

/-- Two quotes that no third one follows are an empty string. -/
theorem string_of_empty {quote d : Char} (h : d ≠ quote) (t : Text) :
    string? quote (quote :: d :: t) = some ([], d :: t) := by
  simp [string?, h]

end Quoted

end Toml

end FeatureTree
