import Hsm.Json.Error
import Hsm.Decimal.Binary
/-! Reading JSON text. The reader walks a cursor over the characters and fails at the first
character that cannot continue the text; a fault is placed either at the last character read or
one byte further ("ahead"), as the rule for that fault says. Integers without fraction or exponent
are unsigned below `2^64` or negative not below `-2^63`; every other number is a binary64 value
computed as `significand · 10^exponent` by one multiplication or division with the nearest power
of ten, where digits past the 64-bit significand only move the exponent. `-0` is the binary64
value `-0.0`. Containers nest at most 127 deep. A repeated key keeps its last value. -/
namespace Hsm
namespace Json

/-- Text still to be read, with the line and byte column where the last character read ends. -/
structure Cursor where
  rest : List Char
  line : Nat
  col : Nat

namespace Cursor

def ofString (s : String) : Cursor := ⟨s.toList, 1, 0⟩

def pos (c : Cursor) : Pos := ⟨c.line, c.col⟩

/-- One byte past the last character read; after a line break, the start of the next line. -/
def peekPos (c : Cursor) : Pos :=
  match c.rest with
  | [] => ⟨c.line, c.col⟩
  | '\n' :: _ => ⟨c.line + 1, 0⟩
  | _ :: _ => ⟨c.line, c.col + 1⟩

def bump (c : Cursor) : Cursor :=
  match c.rest with
  | [] => c
  | '\n' :: cs => ⟨cs, c.line + 1, 0⟩
  | ch :: cs => ⟨cs, c.line, c.col + ch.utf8Size⟩

def advance (c : Cursor) : Nat → Cursor
  | 0 => c
  | n + 1 => c.bump.advance n

/-- Read blanks: spaces, tabs, carriage returns and line feeds. -/
def skipBlanks (c : Cursor) : Cursor :=
  match h : c.rest with
  | ch :: cs =>
    if ch = ' ' ∨ ch = '\t' ∨ ch = '\r' ∨ ch = '\n' then
      have : cs.length < c.rest.length := by simp [h]
      skipBlanks ⟨cs, if ch = '\n' then c.line + 1 else c.line, if ch = '\n' then 0 else c.col + 1⟩
    else c
  | [] => c
termination_by c.rest.length

end Cursor

/-- A reading step: it may fail, and the cursor keeps what was read before a failure. -/
abbrev Reader := ExceptT Error (StateM Cursor)

namespace Reader

def run' {α : Type} (r : Reader α) (s : String) : Except Error α × Cursor :=
  (ExceptT.run r).run (Cursor.ofString s)

def peek : Reader (Option Char) := return (← get).rest.head?

def bump : Reader Unit := modify Cursor.bump

def blank : Reader (Option Char) := do modify Cursor.skipBlanks; peek

/-- Characters left, plus one: a bound on the steps of any loop that reads a character per step. -/
def budget : Reader Nat := return (← get).rest.length + 1

def faultHere {α : Type} (f : Fault) : Reader α := do throw ⟨.inl f, some (← get).pos⟩

def faultAhead {α : Type} (f : Fault) : Reader α := do throw ⟨.inl f, some (← get).peekPos⟩

def mismatch {α : Type} (m : Mismatch) : Reader α := throw ⟨.inr m, none⟩

def placed {α : Type} (r : Reader α) : Reader α :=
  tryCatch r fun e => do
    match e.pos with
    | some _ => throw e
    | none => throw { e with pos := some (← get).pos }

/-- Read the rest of a keyword whose first letter was read. A wrong letter is read a byte at a
time, so the fault stands one byte into it. -/
def ident : List Char → Reader Unit
  | [] => pure ()
  | e :: es => do
    match ← peek with
    | none => faultHere .eofValue
    | some c => if c = e then do bump; ident es else faultAhead .expectedIdent

end Reader

/-! ### Numbers -/

/-- The result of scanning a number: the number and the characters it took, or a fault after
`used` characters, placed one byte further when `ahead`. -/
inductive Scan where
  | ok (n : Number) (used : Nat)
  | err (f : Fault) (used : Nat) (ahead : Bool)

namespace Scan

def u64Max : Nat := 18446744073709551615

def i32Max : Nat := 2147483647

def clampI32 (e : Int) : Int := max (-2147483648) (min e 2147483647)

def digitVal (c : Char) : Nat := c.toNat - 48

def digitRun (cs : List Char) : Nat := (cs.takeWhile Char.isDigit).length

/-- `f · 10^e`, by one multiplication or division with the nearest power of ten; an exponent
below `-308` first divides by `10^308`. `none` when the product overflows. -/
def scale : Nat → Float → Int → Option Float
  | 0, f, _ => some f
  | fuel + 1, f, e =>
    if e.natAbs ≤ 308 then
      let p := Decimal.powersOfTen.getD e.natAbs 1
      if 0 ≤ e then
        let g := f * p
        if g.isInf then none else some g
      else some (f / p)
    else if f == 0 then some f
    else if 0 ≤ e then none
    else scale fuel (f / Decimal.powersOfTen.getD 308 1) (e + 308)

def fromParts (positive : Bool) (sig : Nat) (e : Int) (used : Nat) : Scan :=
  match scale 4 sig.toUInt64.toFloat e with
  | some f => .ok (.float (if positive then f else -f)) used
  | none => .err .numberOutOfRange used false

/-- An exponent too long for 32 bits: an error for a nonzero significand and a positive
exponent, zero otherwise. -/
def exponentOverflow (positive zeroSig positiveExp : Bool) (used : Nat) (cs : List Char) : Scan :=
  if !zeroSig && positiveExp then .err .numberOutOfRange used false
  else .ok (.float (if positive then 0.0 else -0.0)) (used + digitRun cs)

/-- Digits of an exponent after the first. -/
def exponentDigits (positive : Bool) (sig : Nat) (start : Int) (positiveExp : Bool) (exp : Nat)
    (used : Nat) : List Char → Scan
  | c :: cs =>
    if c.isDigit then
      let e := exp * 10 + digitVal c
      if e > i32Max then exponentOverflow positive (sig = 0) positiveExp (used + 1) cs
      else exponentDigits positive sig start positiveExp e (used + 1) cs
    else fromParts positive sig (clampI32 (if positiveExp then start + exp else start - exp)) used
  | [] => fromParts positive sig (clampI32 (if positiveExp then start + exp else start - exp)) used

/-- The first digit of an exponent, which must be there. -/
def exponentFirst (positive : Bool) (sig : Nat) (start : Int) (positiveExp : Bool) (used : Nat) :
    List Char → Scan
  | [] => .err .eofValue used false
  | c :: cs =>
    if c.isDigit then exponentDigits positive sig start positiveExp (digitVal c) (used + 1) cs
    else .err .invalidNumber used true

def exponent (positive : Bool) (sig : Nat) (start : Int) (used : Nat) : List Char → Scan
  | '+' :: cs => exponentFirst positive sig start true (used + 1) cs
  | '-' :: cs => exponentFirst positive sig start false (used + 1) cs
  | cs => exponentFirst positive sig start true used cs

def fractionEnd (positive : Bool) (sig : Nat) (e : Int) (used : Nat) : List Char → Scan
  | c :: cs =>
    if c = 'e' ∨ c = 'E' then exponent positive sig e (used + 1) cs else fromParts positive sig e used
  | [] => fromParts positive sig e used

def fractionOverflow (positive : Bool) (sig : Nat) (e : Int) (used : Nat) (cs : List Char) : Scan :=
  fractionEnd positive sig e (used + digitRun cs) (cs.drop (digitRun cs))

/-- Digits after the decimal point; at least one is needed. -/
def fraction (positive : Bool) (sig : Nat) (before : Int) (after : Nat) (used : Nat) :
    List Char → Scan
  | c :: cs =>
    if c.isDigit then
      let s := sig * 10 + digitVal c
      if s > u64Max then fractionOverflow positive sig (before - after) used (c :: cs)
      else fraction positive s before (after + 1) (used + 1) cs
    else if after = 0 then .err .invalidNumber used true
    else fractionEnd positive sig (before - after) used (c :: cs)
  | [] => if after = 0 then .err .eofValue used true else fromParts positive sig (before - after) used

def integerValue (positive : Bool) (sig used : Nat) : Scan :=
  if positive then .ok (.nat sig) used
  else if sig = 0 then .ok (.float (-0.0)) used
  else if sig ≤ 9223372036854775808 then .ok (.neg (-(sig : Int))) used
  else .ok (.float (-sig.toUInt64.toFloat)) used

/-- After the integer part: a fraction, an exponent, or the end. -/
def afterInteger (positive : Bool) (sig used : Nat) : List Char → Scan
  | '.' :: cs => fraction positive sig 0 0 (used + 1) cs
  | c :: cs =>
    if c = 'e' ∨ c = 'E' then exponent positive sig 0 (used + 1) cs
    else integerValue positive sig used
  | [] => integerValue positive sig used

/-- Integer digits past the 64-bit significand each raise the exponent by one. -/
def longInteger (positive : Bool) (sig : Nat) (e : Nat) (used : Nat) : List Char → Scan
  | c :: cs =>
    if c.isDigit then longInteger positive sig (e + 1) (used + 1) cs
    else if c = '.' then fraction positive sig e 0 (used + 1) cs
    else if c = 'e' ∨ c = 'E' then exponent positive sig e (used + 1) cs
    else fromParts positive sig e used
  | [] => fromParts positive sig e used

/-- Integer digits after a nonzero first digit. -/
def integerDigits (positive : Bool) (sig used : Nat) : List Char → Scan
  | c :: cs =>
    if c.isDigit then
      let s := sig * 10 + digitVal c
      if s > u64Max then longInteger positive sig 0 used (c :: cs)
      else integerDigits positive s (used + 1) cs
    else afterInteger positive sig used (c :: cs)
  | [] => afterInteger positive sig used []

/-- A number from its first digit (a minus sign already read when `positive` is false). -/
def number (positive : Bool) : List Char → Scan
  | [] => .err .eofValue 0 false
  | '0' :: cs =>
    match cs with
    | c :: _ => if c.isDigit then .err .invalidNumber 1 true else afterInteger positive 0 1 cs
    | [] => afterInteger positive 0 1 []
  | c :: cs =>
    if c.isDigit then integerDigits positive (digitVal c) 1 cs else .err .invalidNumber 0 true

/-- An exponent that is only checked, after its letter. -/
def skipExponent (used : Nat) (cs : List Char) : Scan :=
  let (cs, used) := match cs with
    | '+' :: r => (r, used + 1)
    | '-' :: r => (r, used + 1)
    | r => (r, used)
  match cs with
  | c :: r => if c.isDigit then .ok (.nat 0) (used + 1 + digitRun r) else .err .invalidNumber used true
  | [] => .err .invalidNumber used false

/-- What may follow the integer part of a number that is only checked. -/
def skipTail (used : Nat) : List Char → Scan
  | '.' :: r =>
    let n := digitRun r
    if n = 0 then .err .invalidNumber (used + 1) true
    else
      match r.drop n with
      | c :: r' => if c = 'e' ∨ c = 'E' then skipExponent (used + n + 2) r' else .ok (.nat 0) (used + n + 1)
      | [] => .ok (.nat 0) (used + n + 1)
  | c :: r => if c = 'e' ∨ c = 'E' then skipExponent (used + 1) r else .ok (.nat 0) used
  | [] => .ok (.nat 0) used

/-- A number that is only checked for its form; its size does not matter. -/
def skipNumber : List Char → Scan
  | [] => .err .invalidNumber 0 false
  | '0' :: r =>
    match r with
    | c :: _ => if c.isDigit then .err .invalidNumber 1 true else skipTail 1 r
    | [] => skipTail 1 []
  | c :: r =>
    if c.isDigit then skipTail (1 + digitRun r) (r.drop (digitRun r)) else .err .invalidNumber 0 true

end Scan

namespace Reader

/-- Apply a scan at the cursor. -/
def scanned (scan : List Char → Scan) : Reader Number := do
  let c ← get
  match scan c.rest with
  | .ok n used => set (c.advance used); pure n
  | .err f used ahead =>
    set (c.advance used)
    if ahead then faultAhead f else faultHere f

def number (positive : Bool) : Reader Number := scanned (Scan.number positive)

/-! ### Strings -/

def hexVal (c : Char) : Option Nat :=
  if c.isDigit then some (c.toNat - 48)
  else if 'a' ≤ c ∧ c ≤ 'f' then some (c.toNat - 87)
  else if 'A' ≤ c ∧ c ≤ 'F' then some (c.toNat - 55)
  else none

/-- Where the text stands `n` bytes further on, counting into a character that the bytes cut;
`none` when fewer than `n` bytes are left. -/
def bytesAhead (line col : Nat) : List Char → Nat → Option Pos
  | _, 0 => some ⟨line, col⟩
  | [], _ + 1 => none
  | ch :: cs, n + 1 =>
    if ch = '\n' then bytesAhead (line + 1) 0 cs n
    else if n + 1 ≤ ch.utf8Size then some ⟨line, col + n + 1⟩
    else bytesAhead line (col + ch.utf8Size) cs (n + 1 - ch.utf8Size)

/-- Four hexadecimal digits of a `\u` escape. The escape takes the next four bytes whatever they
are: any that is not a digit makes it invalid, placed after the fourth byte. -/
def hexQuad : Reader Nat := do
  let c ← get
  match c.rest with
  | a :: b :: d :: e :: _ =>
    match hexVal a, hexVal b, hexVal d, hexVal e with
    | some w, some x, some y, some z => set (c.advance 4); pure (((w * 16 + x) * 16 + y) * 16 + z)
    | _, _, _, _ => throw ⟨.inl .invalidEscape, bytesAhead c.line c.col c.rest 4⟩
  | cs =>
    match bytesAhead c.line c.col cs 4 with
    | some p => throw ⟨.inl .invalidEscape, some p⟩
    | none =>
      set (c.advance cs.length)
      faultHere .eofString

/-- A `\u` escape after its letter: a character of the basic plane, or a surrogate pair. -/
def unicodeEscape (acc : List Char) : Reader (List Char) := do
  let n ← hexQuad
  if 0xDC00 ≤ n ∧ n ≤ 0xDFFF then faultHere .loneLeadingSurrogate
  else if n < 0xD800 ∨ 0xDBFF < n then pure (Char.ofNat n :: acc)
  else
    match ← peek with
    | none => faultHere .eofString
    | some '\\' => bump
    | some _ => faultAhead .unexpectedEndOfHexEscape
    match ← peek with
    | none => faultHere .eofString
    | some 'u' => bump
    | some _ => faultAhead .unexpectedEndOfHexEscape
    let m ← hexQuad
    if m < 0xDC00 ∨ 0xDFFF < m then faultHere .loneLeadingSurrogate
    else pure (Char.ofNat ((((n - 0xD800) <<< 10) ||| (m - 0xDC00)) + 0x10000) :: acc)

/-- The character a one-letter escape stands for. -/
def escaped? : Char → Option Char
  | '"' => some '"'
  | '\\' => some '\\'
  | '/' => some '/'
  | 'b' => some (Char.ofNat 8)
  | 'f' => some (Char.ofNat 12)
  | 'n' => some '\n'
  | 'r' => some '\r'
  | 't' => some '\t'
  | _ => none

/-- An escape after its backslash; a wrong escape letter is placed one byte into it. -/
def escape (acc : List Char) : Reader (List Char) := do
  match ← peek with
  | none => faultHere .eofString
  | some 'u' => bump; unicodeEscape acc
  | some c =>
    match escaped? c with
    | some e => bump; pure (e :: acc)
    | none => faultAhead .invalidEscape

/-- The rest of a string after its opening quote; the characters so far are `acc`, reversed. -/
def stringBody : Nat → List Char → Reader String
  | 0, _ => faultHere .eofString
  | fuel + 1, acc => do
    match ← peek with
    | none => faultHere .eofString
    | some '"' => bump; pure (String.ofList acc.reverse)
    | some '\\' => bump; stringBody fuel (← escape acc)
    | some c =>
      bump
      if c.toNat < 0x20 then faultHere .controlCharacter else stringBody fuel (c :: acc)

def string : Reader String := do stringBody (← budget) []

/-- A string that is only checked: escapes need their form, surrogates are not paired, and a
control character is reported before it is read. -/
def skipStringBody : Nat → Reader Unit
  | 0 => faultHere .eofString
  | fuel + 1 => do
    match ← peek with
    | none => faultHere .eofString
    | some '"' => bump
    | some '\\' =>
      bump
      match ← peek with
      | none => faultHere .eofString
      | some 'u' => bump; discard hexQuad
      | some c => if (escaped? c).isSome then bump else faultAhead .invalidEscape
      skipStringBody fuel
    | some c => if c.toNat < 0x20 then faultHere .controlCharacter else do bump; skipStringBody fuel

/-! ### Values -/

/-- The closing bracket of a list whose items were read. -/
def closeList : Reader Unit := do
  match ← blank with
  | some ']' => bump
  | some ',' =>
    bump
    match ← blank with
    | some ']' => faultAhead .trailingComma
    | _ => faultAhead .trailingCharacters
  | some _ => faultAhead .trailingCharacters
  | none => faultAhead .eofList

/-- The closing brace of an object whose fields were read. -/
def closeObject : Reader Unit := do
  match ← blank with
  | some '}' => bump
  | some ',' => faultAhead .trailingComma
  | some _ => faultAhead .trailingCharacters
  | none => faultAhead .eofObject

/-- Whether another list item follows: a comma (after the first item) and no closing bracket. -/
def moreItems (first : Bool) : Reader Bool := do
  match ← blank with
  | none => faultAhead .eofList
  | some ']' => pure false
  | some c =>
    if first then pure true
    else if c = ',' then
      bump
      match ← blank with
      | some ']' => faultAhead .trailingComma
      | some _ => pure true
      | none => faultAhead .eofValue
    else faultAhead .expectedListCommaOrEnd

/-- The next key of an object, or `none` at the closing brace. -/
def nextKey (first : Bool) : Reader (Option String) := do
  let p ← match ← blank with
    | some '}' => return none
    | some ',' => if first then pure (some ',') else do bump; blank
    | some b => if first then pure (some b) else faultAhead .expectedObjectCommaOrEnd
    | none => faultAhead .eofObject
  match p with
  | some '"' => bump; return some (← string)
  | some '}' => faultAhead .trailingComma
  | some _ => faultAhead .keyMustBeString
  | none => faultAhead .eofValue

def colon : Reader Unit := do
  match ← blank with
  | some ':' => bump
  | some _ => faultAhead .expectedColon
  | none => faultAhead .eofObject

def items {α : Type} (item : Reader α) : Nat → Bool → List α → Reader (List α)
  | 0, _, acc => pure acc.reverse
  | fuel + 1, first, acc => do
    if ← moreItems first then items item fuel false ((← item) :: acc) else pure acc.reverse

/-- Object fields, each value read by `item`; a repeated key keeps its last value. -/
def fields (item : Reader Value) : Nat → Bool → List (String × Value) →
    Reader (List (String × Value))
  | 0, _, acc => pure acc
  | fuel + 1, first, acc => do
    match ← nextKey first with
    | none => pure acc
    | some k =>
      colon
      let v ← item
      fields item fuel false (Value.insertField k v acc)

/-- A value, with `depth` more levels of nesting allowed (a container needs two). -/
def value : Nat → Reader Value
  | 0 => faultAhead .recursionLimit
  | depth + 1 => do
    match ← blank with
    | none => faultAhead .eofValue
    | some c =>
      match c with
      | 'n' => bump; ident ['u', 'l', 'l']; pure .null
      | 't' => bump; ident ['r', 'u', 'e']; pure (.bool true)
      | 'f' => bump; ident ['a', 'l', 's', 'e']; pure (.bool false)
      | '-' => bump; return .num (← number false)
      | '"' => bump; return .str (← string)
      | '[' =>
        if depth = 0 then faultAhead .recursionLimit
        else do
          bump
          let xs ← items (value depth) (← budget) true []
          closeList
          pure (.arr xs)
      | '{' =>
        if depth = 0 then faultAhead .recursionLimit
        else do
          bump
          let fs ← fields (value depth) (← budget) true []
          closeObject
          pure (.obj fs)
      | c => if c.isDigit then return .num (← number true) else faultAhead .expectedValue

def topDepth : Nat := 128

/-- A value that is only checked for its form, with no limit on nesting. -/
def skipValue : Nat → Reader Unit
  | 0 => pure ()
  | fuel + 1 => do
    match ← blank with
    | none => faultAhead .eofValue
    | some c =>
      match c with
      | 'n' => bump; ident ['u', 'l', 'l']
      | 't' => bump; ident ['r', 'u', 'e']
      | 'f' => bump; ident ['a', 'l', 's', 'e']
      | '-' => bump; discard (scanned Scan.skipNumber)
      | '"' => bump; skipStringBody (← budget)
      | '[' => bump; skipItems (skipValue fuel) (← budget) true
      | '{' => bump; skipFields (skipValue fuel) (← budget) true
      | c => if c.isDigit then discard (scanned Scan.skipNumber) else faultAhead .expectedValue
where
  /-- Items of a list that is only checked; a comma must be followed by an item. -/
  skipItems (item : Reader Unit) : Nat → Bool → Reader Unit
    | 0, _ => pure ()
    | fuel + 1, first => do
      match ← blank with
      | some ']' => bump
      | some ',' => if first then item *> skipItems item fuel false else bump *> item *> skipItems item fuel false
      | some _ => if first then item *> skipItems item fuel false else faultAhead .expectedListCommaOrEnd
      | none => faultAhead .eofList
  /-- Fields of an object that is only checked. -/
  skipFields (item : Reader Unit) : Nat → Bool → Reader Unit
    | 0, _ => pure ()
    | fuel + 1, first => do
      match ← blank with
      | some '}' => bump
      | some ',' =>
        if first then skipField item *> skipFields item fuel false
        else bump *> skipField item *> skipFields item fuel false
      | some _ => if first then skipField item *> skipFields item fuel false else faultAhead .expectedObjectCommaOrEnd
      | none => faultAhead .eofObject
  /-- A key, its colon and its value. -/
  skipField (item : Reader Unit) : Reader Unit := do
    match ← blank with
    | some '"' => bump
    | some _ => faultAhead .keyMustBeString
    | none => faultAhead .eofObject
    skipStringBody (← budget)
    colon
    item

def finish : Reader Unit := do
  match ← blank with
  | some _ => faultAhead .trailingCharacters
  | none => pure ()

end Reader

def Value.ofText (s : String) : Except Error Value :=
  (Reader.run' (do let v ← Reader.value Reader.topDepth; Reader.finish; pure v) s).1

end Json
end Hsm
