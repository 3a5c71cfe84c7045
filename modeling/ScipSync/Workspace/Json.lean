import ScipSync.Basic.Dict
import ScipSync.Basic.Text

/-! The text of a JSON document as `json.dump(obj, f, indent=2)` writes it and
`json.load` reads it back (utils.py `write_json` with `pretty=True`, and
`get_json`).

The writer escapes every character outside printable ASCII (`ensure_ascii`),
puts each array item and object member on its own line indented by two spaces
per level, and writes integers in decimal. The reader skips whitespace between
tokens, decodes the escapes (joining surrogate pairs), and builds each object as
a dict, so a repeated key keeps its first position and its last value.

Reading back what was written gives the same value (`loads_dumps`), for every
value whose objects have distinct keys, as every Python dict has, and which holds no
float: the reader takes fractions, exponents, `NaN` and `Infinity` as `json.loads`
does, and keeps a float as the text `float()` receives, but the writer's
`float.__repr__` is not modelled, and no file the program writes holds a float. -/

namespace ScipSync.Workspace.Json
open ScipSync.Basic.Dict ScipSync.Basic.Text

/-- A JSON value. -/
inductive Value
  | null
  | bool (b : Bool)
  | num (n : Int)
  /-- A float, as the text that `float()` reads it from: the number's literal, or `NaN`,
  `Infinity` or `-Infinity`. -/
  | float (text : String)
  | str (s : String)
  | arr (items : List Value)
  | obj (fields : List (String × Value))
deriving Repr

/-! ## Writing -/

/-- Four lowercase hex digits, as `'{0:04x}'.format(n)` for `n < 65536`. -/
def hex4 (n : Nat) : List Char :=
  [Nat.digitChar (n / 4096 % 16), Nat.digitChar (n / 256 % 16), Nat.digitChar (n / 16 % 16),
    Nat.digitChar (n % 16)]

/-- `py_encode_basestring_ascii` on one character: the short escapes, printable
ASCII as is, `\uXXXX` for the rest of the basic plane and a surrogate pair
beyond it. -/
def escapeChar (c : Char) : List Char :=
  if c = '\\' then ['\\', '\\']
  else if c = '"' then ['\\', '"']
  else if c = '\n' then ['\\', 'n']
  else if c = '\r' then ['\\', 'r']
  else if c = '\t' then ['\\', 't']
  else if c = '\x08' then ['\\', 'b']
  else if c = '\x0c' then ['\\', 'f']
  else if 0x20 ≤ c.toNat ∧ c.toNat ≤ 0x7E then [c]
  else if c.toNat < 0x10000 then '\\' :: 'u' :: hex4 c.toNat
  else
    '\\' :: 'u' :: hex4 (0xD800 + (c.toNat - 0x10000) / 1024) ++
      '\\' :: 'u' :: hex4 (0xDC00 + (c.toNat - 0x10000) % 1024)

/-- A string literal. -/
def encodeString (s : String) : List Char :=
  '"' :: s.toList.flatMap escapeChar ++ ['"']

/-- A line break and the indentation of `level`. -/
def newline (level : Nat) : List Char :=
  '\n' :: List.replicate (2 * level) ' '

mutual
/-- `_iterencode` at indentation `level`. A float is written as the text it was read
from, which is what `floatstr` writes for the texts it writes itself. -/
def encode (level : Nat) : Value → List Char
  | .null => ['n', 'u', 'l', 'l']
  | .bool true => ['t', 'r', 'u', 'e']
  | .bool false => ['f', 'a', 'l', 's', 'e']
  | .num n => (toString n).toList
  | .float text => text.toList
  | .str s => encodeString s
  | .arr [] => ['[', ']']
  | .arr (x :: xs) =>
    '[' :: newline (level + 1) ++ encode (level + 1) x ++ encodeItems (level + 1) xs ++
      newline level ++ [']']
  | .obj [] => ['{', '}']
  | .obj ((k, v) :: fs) =>
    '{' :: newline (level + 1) ++ encodeString k ++ [':', ' '] ++ encode (level + 1) v ++
      encodeFields (level + 1) fs ++ newline level ++ ['}']

/-- The items after the first, each after `,` and a line break. -/
def encodeItems (level : Nat) : List Value → List Char
  | [] => []
  | x :: xs => ',' :: newline level ++ encode level x ++ encodeItems level xs

/-- The members after the first. -/
def encodeFields (level : Nat) : List (String × Value) → List Char
  | [] => []
  | (k, v) :: fs =>
    ',' :: newline level ++ encodeString k ++ [':', ' '] ++ encode level v ++
      encodeFields level fs
end

/-- The text `json.dump(obj, f, indent=2)` writes. -/
def dumps (j : Value) : String := ⟨encode 0 j⟩

/-! ## Reading -/

/-- `WHITESPACE`: `[ \t\n\r]`. -/
def isWs (c : Char) : Bool := c = ' ' || c = '\t' || c = '\n' || c = '\r'

/-- Skip whitespace. -/
def skipWs (s : List Char) : List Char := s.dropWhile isWs

/-- One hex digit, either case. -/
def hexValue (c : Char) : Option Nat :=
  if '0' ≤ c ∧ c ≤ '9' then some (c.toNat - '0'.toNat)
  else if 'a' ≤ c ∧ c ≤ 'f' then some (c.toNat - 'a'.toNat + 10)
  else if 'A' ≤ c ∧ c ≤ 'F' then some (c.toNat - 'A'.toNat + 10)
  else none

/-- `_decode_uXXXX`. -/
def hex4Value (a b c d : Char) : Option Nat := do
  return (← hexValue a) * 4096 + (← hexValue b) * 256 + (← hexValue c) * 16 + (← hexValue d)

/-- `BACKSLASH`: the one-character escapes. -/
def escapeValue : Char → Option Char
  | '"' => some '"'
  | '\\' => some '\\'
  | '/' => some '/'
  | 'b' => some '\x08'
  | 'f' => some '\x0c'
  | 'n' => some '\n'
  | 'r' => some '\r'
  | 't' => some '\t'
  | _ => none

/-- Put `c` in front of a scanned string. -/
def prepend (c : Char) (r : Option (List Char × List Char)) : Option (List Char × List Char) :=
  r.map fun p => (c :: p.1, p.2)

mutual
/-- `scanstring` (strict) from after the opening quote: the characters and what
follows the closing quote. A surrogate that is not half of a pair has no
character in the model, so it fails. -/
def scanString : List Char → Option (List Char × List Char)
  | [] => none
  | c :: rest =>
    if c = '"' then some ([], rest)
    else if c = '\\' then scanEscape rest
    else if c.toNat < 0x20 then none else prepend c (scanString rest)

/-- After a backslash: `\uXXXX`, or one of `BACKSLASH`. -/
def scanEscape : List Char → Option (List Char × List Char)
  | [] => none
  | e :: rest =>
    if e = 'u' then scanUnicode rest
    else (escapeValue e).bind fun c => prepend c (scanString rest)

/-- After `\u`: `_decode_uXXXX`, and a high surrogate must be followed by its
low half. -/
def scanUnicode : List Char → Option (List Char × List Char)
  | a :: b :: c :: d :: rest =>
    (hex4Value a b c d).bind fun u =>
      if u < 0xD800 ∨ 0xDFFF < u then prepend (Char.ofNat u) (scanString rest)
      else if u ≤ 0xDBFF then scanLowSurrogate u rest
      else none
  | _ => none

/-- The `\uXXXX` after the high surrogate `u`, joined with it. -/
def scanLowSurrogate (u : Nat) : List Char → Option (List Char × List Char)
  | b :: v :: e :: f :: g :: h :: rest =>
    if b = '\\' ∧ v = 'u' then
      (hex4Value e f g h).bind fun u2 =>
        if 0xDC00 ≤ u2 ∧ u2 ≤ 0xDFFF then
          prepend (Char.ofNat (0x10000 + (u - 0xD800) * 1024 + (u2 - 0xDC00))) (scanString rest)
        else none
    else none
  | _ => none
end

theorem scanString_eq_cons (c : Char) (rest : List Char) :
    scanString (c :: rest) = if c = '"' then some ([], rest) else if c = '\\' then scanEscape rest
      else if c.toNat < 0x20 then none else prepend c (scanString rest) := rfl

theorem scanUnicode_cons (a b c d : Char) (rest : List Char) :
    scanUnicode (a :: b :: c :: d :: rest) =
      (hex4Value a b c d).bind fun u =>
        if u < 0xD800 ∨ 0xDFFF < u then prepend (Char.ofNat u) (scanString rest)
        else if u ≤ 0xDBFF then scanLowSurrogate u rest
        else none := rfl

theorem scanLowSurrogate_cons (u : Nat) (b v e f g h : Char) (rest : List Char) :
    scanLowSurrogate u (b :: v :: e :: f :: g :: h :: rest) =
      if b = '\\' ∧ v = 'u' then
        (hex4Value e f g h).bind fun u2 =>
          if 0xDC00 ≤ u2 ∧ u2 ≤ 0xDFFF then
            prepend (Char.ofNat (0x10000 + (u - 0xD800) * 1024 + (u2 - 0xDC00))) (scanString rest)
          else none
      else none := rfl

/-- The integer part's digits: `0`, or a digit `1`-`9` and the digits after it. -/
def scanDigits : List Char → Option (List Char × List Char)
  | '0' :: rest => some (['0'], rest)
  | c :: rest => if c.isDigit then some (c :: rest.takeWhile Char.isDigit, rest.dropWhile Char.isDigit)
    else none
  | [] => none

/-- `NUMBER_RE`'s fraction group `(\.\d+)?`: the dot and its digits, when a digit follows
the dot, and the rest of the text. -/
def scanFrac : List Char → List Char × List Char
  | '.' :: d :: rest =>
    if d.isDigit then ('.' :: d :: rest.takeWhile Char.isDigit, rest.dropWhile Char.isDigit)
    else ([], '.' :: d :: rest)
  | s => ([], s)

/-- The optional `[-+]` of the exponent group. -/
def scanSign : List Char → List Char × List Char
  | '+' :: rest => (['+'], rest)
  | '-' :: rest => (['-'], rest)
  | s => ([], s)

/-- `NUMBER_RE`'s exponent group `([eE][-+]?\d+)?`: nothing unless a digit follows the
`e` and its sign. -/
def scanExp : List Char → List Char × List Char
  | e :: rest =>
    if e = 'e' ∨ e = 'E' then
      let (sign, r) := scanSign rest
      match r.takeWhile Char.isDigit with
      | [] => ([], e :: rest)
      | ds => (e :: sign ++ ds, r.dropWhile Char.isDigit)
    else ([], e :: rest)
  | [] => ([], [])

/-- `NUMBER_RE` after an optional minus sign, and what `scan_once` makes of its groups:
`parse_int(integer)` without a fraction and an exponent, and otherwise
`parse_float(integer + (frac or '') + (exp or ''))`, kept as that text. -/
def matchNumber (negative : Bool) (s : List Char) : Option (Value × List Char) :=
  match scanDigits s with
  | none => none
  | some (digits, rest) =>
    let (frac, rest) := scanFrac rest
    let (exp, rest) := scanExp rest
    if frac = [] ∧ exp = [] then
      some (.num (if negative then -(digitsValue digits : Int) else digitsValue digits), rest)
    else some (.float ⟨(if negative then ['-'] else []) ++ digits ++ frac ++ exp⟩, rest)

/-- `match_number` at the head. -/
def scanNumber : List Char → Option (Value × List Char)
  | '-' :: s => matchNumber true s
  | s => matchNumber false s

/-- `parse_constant` of the texts `scan_once` tries when no number matches. -/
def scanConstant (s : List Char) : Option (Value × List Char) :=
  if s.take 3 = ['N', 'a', 'N'] then some (.float "NaN", s.drop 3)
  else if s.take 8 = "Infinity".toList then some (.float "Infinity", s.drop 8)
  else if s.take 9 = "-Infinity".toList then some (.float "-Infinity", s.drop 9)
  else none

/-- `dict(pairs)`: a repeated key keeps its first position and its last value. -/
def dictOfPairs (pairs : List (String × Value)) : List (String × Value) :=
  (pairs.foldl (fun d (p : String × Value) => d.set p.1 p.2) PyDict.empty).entries

/-- The literals of `scan_once` (`string[idx:idx + 4] == 'null'` and so on), then a
number, then `NaN` and the infinities. -/
def scanLiteral (s : List Char) : Option (Value × List Char) :=
  if s.take 4 = ['n', 'u', 'l', 'l'] then some (.null, s.drop 4)
  else if s.take 4 = ['t', 'r', 'u', 'e'] then some (.bool true, s.drop 4)
  else if s.take 5 = ['f', 'a', 'l', 's', 'e'] then some (.bool false, s.drop 5)
  else (scanNumber s).orElse fun _ => scanConstant s

mutual
/-- `scan_once`, with `fuel` bounding the nesting and the number of members and
items. -/
def scanOnce : Nat → List Char → Option (Value × List Char)
  | 0, _ => none
  | _ + 1, [] => none
  | fuel + 1, c :: rest =>
    if c = '"' then (scanString rest).map fun p => (.str ⟨p.1⟩, p.2)
    else if c = '{' then
      match skipWs rest with
      | [] => none
      | c :: rest =>
        if c = '}' then some (.obj [], rest)
        else if c = '"' then (scanMembers fuel rest).map fun p => (.obj (dictOfPairs p.1), p.2)
        else none
    else if c = '[' then
      match skipWs rest with
      | [] => none
      | c :: rest' =>
        if c = ']' then some (.arr [], rest')
        else (scanItems fuel (c :: rest')).map fun p => (.arr p.1, p.2)
    else scanLiteral (c :: rest)

/-- `JSONObject`'s loop, from after a key's opening quote. -/
def scanMembers : Nat → List Char → Option (List (String × Value) × List Char)
  | 0, _ => none
  | fuel + 1, s =>
    match scanString s with
    | none => none
    | some (key, s) =>
      match skipWs s with
      | [] => none
      | c :: s =>
        if c = ':' then
          match scanOnce fuel (skipWs s) with
          | none => none
          | some (value, s) =>
            match skipWs s with
            | [] => none
            | c :: s =>
              if c = '}' then some ([(⟨key⟩, value)], s)
              else if c = ',' then
                match skipWs s with
                | [] => none
                | c :: s =>
                  if c = '"' then (scanMembers fuel s).map fun p => ((⟨key⟩, value) :: p.1, p.2)
                  else none
              else none
        else none

/-- `JSONArray`'s loop, from the first item. -/
def scanItems : Nat → List Char → Option (List Value × List Char)
  | 0, _ => none
  | fuel + 1, s =>
    match scanOnce fuel s with
    | none => none
    | some (value, s) =>
      match skipWs s with
      | [] => none
      | c :: s =>
        if c = ']' then some ([value], s)
        else if c = ',' then (scanItems fuel (skipWs s)).map fun p => (value :: p.1, p.2)
        else none
end

/-- `json.loads`: one value, with only whitespace around it. -/
def loads (text : String) : Option Value :=
  match scanOnce (text.length + 1) (skipWs text.toList) with
  | some (j, rest) => if skipWs rest = [] then some j else none
  | none => none

/-! ## Well-formed values -/

mutual
/-- The number of values and members in a value: fuel enough to scan its text. -/
def size : Value → Nat
  | .arr items => sizeItems items + 1
  | .obj fields => sizeFields fields + 1
  | _ => 1
def sizeItems : List Value → Nat
  | [] => 0
  | x :: xs => size x + sizeItems xs + 1
def sizeFields : List (String × Value) → Nat
  | [] => 0
  | (_, v) :: fs => size v + sizeFields fs + 1
end

mutual
/-- Every object has distinct keys, as a dict has, and no float is written. -/
def WF : Value → Prop
  | .float _ => False
  | .arr items => ItemsWF items
  | .obj fields => (fields.map Prod.fst).Nodup ∧ FieldsWF fields
  | _ => True
def ItemsWF : List Value → Prop
  | [] => True
  | x :: xs => WF x ∧ ItemsWF xs
def FieldsWF : List (String × Value) → Prop
  | [] => True
  | (_, v) :: fs => WF v ∧ FieldsWF fs
end



/-! ## Reading back what was written

Each lemma scans the text of one piece of a value and stops right after it. -/

theorem skipWs_append_newline (level : Nat) (s : List Char) :
    skipWs (newline level ++ s) = skipWs s := by
  simp only [skipWs, newline, List.cons_append]
  rw [List.dropWhile_cons_of_pos (by decide)]
  induction (2 * level) with
  | zero => rfl
  | succ k ih => rw [List.replicate_succ, List.cons_append, List.dropWhile_cons_of_pos (by decide), ih]

theorem skipWs_space (s : List Char) : skipWs (' ' :: s) = skipWs s :=
  List.dropWhile_cons_of_pos rfl

theorem skipWs_cons {c : Char} (h : isWs c = false) (s : List Char) : skipWs (c :: s) = c :: s :=
  List.dropWhile_cons_of_neg (by simp [h])

theorem hexValue_digitChar : ∀ d < 16, hexValue (Nat.digitChar d) = some d := by decide

theorem hex4Value_hex4 {n : Nat} (h : n < 65536) :
    hex4Value (Nat.digitChar (n / 4096 % 16)) (Nat.digitChar (n / 256 % 16))
      (Nat.digitChar (n / 16 % 16)) (Nat.digitChar (n % 16)) = some n := by
  simp only [hex4Value, hexValue_digitChar _ (Nat.mod_lt _ (by decide : 0 < 16))]
  show some (n / 4096 % 16 * 4096 + n / 256 % 16 * 256 + n / 16 % 16 * 16 + n % 16) = some n
  congr 1
  omega

theorem scanString_unicode (rest : List Char) :
    scanString ('\\' :: 'u' :: rest) = scanUnicode rest := rfl

theorem scanString_cons {c : Char} (h1 : c ≠ '"') (h2 : c ≠ '\\') (rest : List Char) :
    scanString (c :: rest) = if c.toNat < 0x20 then none else prepend c (scanString rest) := by
  rw [scanString_eq_cons, if_neg h1, if_neg h2]

theorem scanString_escapeChar (c : Char) (rest : List Char) :
    scanString (escapeChar c ++ rest) = prepend c (scanString rest) := by
  -- the short escapes
  by_cases hshort : c = '\\' ∨ c = '"' ∨ c = '\n' ∨ c = '\r' ∨ c = '\t' ∨ c = '\x08' ∨ c = '\x0c'
  · rcases hshort with rfl | rfl | rfl | rfl | rfl | rfl | rfl <;> rfl
  simp only [not_or] at hshort
  obtain ⟨h1, h2, h3, h4, h5, h6, h7⟩ := hshort
  have hv : c.toNat < 0xD800 ∨ (0xDFFF < c.toNat ∧ c.toNat < 0x110000) := c.valid
  rw [escapeChar, if_neg h1, if_neg h2, if_neg h3, if_neg h4, if_neg h5, if_neg h6, if_neg h7]
  by_cases h8 : 0x20 ≤ c.toNat ∧ c.toNat ≤ 0x7E
  · rw [if_pos h8, List.singleton_append, scanString_cons h2 h1, if_neg (by omega)]
  rw [if_neg h8]
  by_cases h9 : c.toNat < 0x10000
  · -- one `\uXXXX` escape
    rw [if_pos h9]
    simp only [hex4, List.cons_append, List.nil_append]
    rw [scanString_unicode, scanUnicode_cons, hex4Value_hex4 h9, Option.some_bind,
      if_pos (by omega), Char.ofNat_toNat]
  -- a surrogate pair
  have hq : (c.toNat - 0x10000) / 1024 < 1024 := by omega
  rw [if_neg h9]
  generalize hhi : 0xD800 + (c.toNat - 0x10000) / 1024 = hi
  generalize hlo : 0xDC00 + (c.toNat - 0x10000) % 1024 = lo
  simp only [hex4, List.cons_append, List.nil_append]
  rw [scanString_unicode, scanUnicode_cons, hex4Value_hex4 (by omega), Option.some_bind,
    if_neg (by omega), if_pos (by omega), scanLowSurrogate_cons, if_pos ⟨rfl, rfl⟩,
    hex4Value_hex4 (by omega), Option.some_bind, if_pos (by omega),
    show 65536 + (hi - 55296) * 1024 + (lo - 56320) = c.toNat by omega, Char.ofNat_toNat]

theorem scanString_escaped (cs : List Char) (rest : List Char) :
    scanString (cs.flatMap escapeChar ++ '"' :: rest) = some (cs, rest) := by
  induction cs with
  | nil => rfl
  | cons c cs ih => rw [List.flatMap_cons, List.append_assoc, scanString_escapeChar, ih]; rfl

/-- What may follow a number in the written text: nothing, a comma or a line break. -/
def Delimited (rest : List Char) : Prop := ∀ c r, rest = c :: r → c = ',' ∨ c = '\n'

theorem Delimited.scanFrac {rest : List Char} (h : Delimited rest) : scanFrac rest = ([], rest) := by
  match rest, h with
  | [], _ => rfl
  | c :: r, h => rcases h c r rfl with rfl | rfl <;> rfl

theorem Delimited.scanExp {rest : List Char} (h : Delimited rest) : scanExp rest = ([], rest) := by
  match rest, h with
  | [], _ => rfl
  | c :: r, h => rcases h c r rfl with rfl | rfl <;> rfl

theorem Delimited.takeWhile {rest : List Char} (h : Delimited rest) :
    rest.takeWhile Char.isDigit = [] ∧ rest.dropWhile Char.isDigit = rest := by
  cases rest with
  | nil => exact ⟨rfl, rfl⟩
  | cons c r => rcases h c r rfl with rfl | rfl <;> exact ⟨rfl, rfl⟩

theorem delimited_comma (r : List Char) : Delimited (',' :: r) := by
  intro c r' h; cases h; exact .inl rfl

theorem delimited_newline (level : Nat) (r : List Char) : Delimited (newline level ++ r) := by
  intro c r' h; cases h; exact .inr rfl

theorem delimited_items (level level' : Nat) (xs : List Value) (r : List Char) :
    Delimited (encodeItems level xs ++ (newline level' ++ r)) := by
  cases xs with
  | nil => exact delimited_newline _ _
  | cons => exact delimited_comma _

theorem delimited_fields (level level' : Nat) (fs : List (String × Value)) (r : List Char) :
    Delimited (encodeFields level fs ++ (newline level' ++ r)) := by
  match fs with
  | [] => exact delimited_newline _ _
  | (_, _) :: _ => exact delimited_comma _

theorem takeWhile_digits {ds rest : List Char} (hd : ∀ c ∈ ds, c.isDigit = true) (hr : Delimited rest) :
    (ds ++ rest).takeWhile Char.isDigit = ds ∧ (ds ++ rest).dropWhile Char.isDigit = rest := by
  induction ds with
  | nil => exact hr.takeWhile
  | cons c ds ih =>
    have hc := hd c (List.mem_cons_self _ _)
    obtain ⟨h1, h2⟩ := ih fun x hx => hd x (List.mem_cons_of_mem _ hx)
    simp [List.takeWhile_cons, List.dropWhile_cons, hc, h1, h2]

theorem scanDigits_toDigits (m : Nat) {rest : List Char} (hr : Delimited rest) :
    scanDigits (Nat.toDigits 10 m ++ rest) = some (Nat.toDigits 10 m, rest) := by
  rcases Nat.eq_zero_or_pos m with rfl | hm
  · rfl
  · obtain ⟨c, cs, hcs, hc, hc0⟩ := toDigits_head m hm
    have hdig := isDigit_of_mem_toDigits m
    rw [hcs] at hdig ⊢
    obtain ⟨h1, h2⟩ := takeWhile_digits (fun x hx => hdig x (List.mem_cons_of_mem _ hx)) hr
    rw [List.cons_append, scanDigits.eq_def]
    split
    · rename_i heq
      exact absurd (List.cons.inj heq).1 hc0
    · rename_i c' rest' hne heq
      simp only [List.cons.injEq] at heq
      obtain ⟨rfl, rfl⟩ := heq
      simp [hc, h1, h2]
    · cases ‹_ :: _ = []›

theorem matchNumber_toDigits (negative : Bool) (m : Nat) {rest : List Char} (hr : Delimited rest) :
    matchNumber negative (Nat.toDigits 10 m ++ rest) =
      some (.num (if negative then -(m : Int) else m), rest) := by
  rw [matchNumber, scanDigits_toDigits m hr]
  simp only [hr.scanFrac, hr.scanExp, digitsValue_toDigits]
  rfl

theorem scanNumber_toString (n : Int) {rest : List Char} (hr : Delimited rest) :
    scanNumber ((toString n).toList ++ rest) = some (.num n, rest) := by
  cases n with
  | ofNat m =>
    obtain ⟨c, cs, hcs, hc⟩ : ∃ c cs, Nat.toDigits 10 m = c :: cs ∧ c.isDigit = true := by
      rcases Nat.eq_zero_or_pos m with rfl | hm
      · exact ⟨'0', [], rfl, rfl⟩
      · obtain ⟨c, cs, h, hc, -⟩ := toDigits_head m hm; exact ⟨c, cs, h, hc⟩
    show scanNumber (Nat.toDigits 10 m ++ rest) = _
    have h := matchNumber_toDigits false m hr
    rw [hcs] at h ⊢
    unfold scanNumber
    split
    · rename_i heq; simp only [List.cons_append, List.cons.injEq] at heq
      rw [heq.1] at hc; cases hc
    · exact h
  | negSucc m => exact matchNumber_toDigits true (m + 1) hr

theorem size_pos (j : Value) : 0 < size j := by
  cases j <;> simp [size]

theorem dictOfPairs_of_nodup {pairs : List (String × Value)} (h : (pairs.map Prod.fst).Nodup) :
    dictOfPairs pairs = pairs :=
  PyDict.entries_foldl_set h PyDict.empty (fun _ _ h => by cases h)

theorem isWs_of_isDigit {c : Char} (h : c.isDigit = true) : isWs c = false ∧ c ≠ ']' := by
  refine ⟨?_, ?_⟩
  · simp only [isWs, Bool.or_eq_false_iff, decide_eq_false_iff_not]
    refine ⟨⟨⟨?_, ?_⟩, ?_⟩, ?_⟩ <;> rintro rfl <;> cases h
  · rintro rfl; cases h

theorem encode_head (level : Nat) {j : Value} (hwf : WF j) :
    ∃ c r, encode level j = c :: r ∧ isWs c = false ∧ c ≠ ']' ∧ c ≠ '}' := by
  match j, hwf with
  | .null, _ => exact ⟨_, _, rfl, rfl, by decide, by decide⟩
  | .bool true, _ => exact ⟨_, _, rfl, rfl, by decide, by decide⟩
  | .bool false, _ => exact ⟨_, _, rfl, rfl, by decide, by decide⟩
  | .num (.negSucc m), _ => exact ⟨_, _, rfl, rfl, by decide, by decide⟩
  | .num (.ofNat m), _ =>
    rcases Nat.eq_zero_or_pos m with rfl | hm
    · exact ⟨_, _, rfl, rfl, by decide, by decide⟩
    · obtain ⟨c, cs, hcs, hc, -⟩ := toDigits_head m hm
      obtain ⟨hw, hb⟩ := isWs_of_isDigit hc
      exact ⟨c, cs, hcs, hw, hb, by rintro rfl; cases hc⟩
  | .str _, _ => exact ⟨_, _, rfl, rfl, by decide, by decide⟩
  | .arr [], _ => exact ⟨_, _, rfl, rfl, by decide, by decide⟩
  | .arr (_ :: _), _ => exact ⟨_, _, rfl, rfl, by decide, by decide⟩
  | .obj [], _ => exact ⟨_, _, rfl, rfl, by decide, by decide⟩
  | .obj ((_, _) :: _), _ => exact ⟨_, _, rfl, rfl, by decide, by decide⟩
  | .float _, hwf => exact hwf.elim

theorem skipWs_encode (level : Nat) {j : Value} (hwf : WF j) (rest : List Char) :
    skipWs (encode level j ++ rest) = encode level j ++ rest := by
  obtain ⟨c, r, h, hw, -⟩ := encode_head level hwf
  rw [h, List.cons_append, skipWs_cons hw]

theorem scanOnce_str (level n : Nat) (s : String) (rest : List Char) :
    scanOnce (n + 1) (encode level (.str s) ++ rest) = some (.str s, rest) := by
  show scanOnce (n + 1) (('"' :: s.toList.flatMap escapeChar ++ ['"']) ++ rest) = _
  simp only [List.cons_append, List.append_assoc, List.singleton_append]
  rw [scanOnce, if_pos rfl, scanString_escaped]
  rfl

theorem scanLiteral_of_ne {c : Char} (h1 : c ≠ 'n') (h2 : c ≠ 't') (h3 : c ≠ 'f') (r : List Char) :
    scanLiteral (c :: r) = (scanNumber (c :: r)).orElse fun _ => scanConstant (c :: r) := by
  rw [scanLiteral, if_neg, if_neg, if_neg] <;> simp [h1, h2, h3]

theorem toString_head (k : Int) :
    ∃ c r, (toString k).toList = c :: r ∧ (c.isDigit = true ∨ c = '-') := by
  cases k with
  | negSucc m => exact ⟨'-', _, rfl, .inr rfl⟩
  | ofNat m =>
    rcases Nat.eq_zero_or_pos m with rfl | hm
    · exact ⟨'0', [], rfl, .inl rfl⟩
    · obtain ⟨c, cs, hcs, hc, -⟩ := toDigits_head m hm
      exact ⟨c, cs, hcs, .inl hc⟩

theorem scanOnce_num (level n : Nat) (k : Int) {rest : List Char} (hr : Delimited rest) :
    scanOnce (n + 1) (encode level (.num k) ++ rest) = some (.num k, rest) := by
  show scanOnce (n + 1) ((toString k).toList ++ rest) = _
  have hnum := scanNumber_toString k hr
  obtain ⟨c, r, hcr, hc⟩ := toString_head k
  rw [hcr] at hnum ⊢
  have hne : c ≠ '"' ∧ c ≠ '{' ∧ c ≠ '[' ∧ c ≠ 'n' ∧ c ≠ 't' ∧ c ≠ 'f' := by
    rcases hc with hc | rfl
    · refine ⟨?_, ?_, ?_, ?_, ?_, ?_⟩ <;> rintro rfl <;> cases hc
    · decide
  obtain ⟨h1, h2, h3, h4, h5, h6⟩ := hne
  rw [List.cons_append, scanOnce, if_neg h1, if_neg h2, if_neg h3, scanLiteral_of_ne h4 h5 h6,
    ← List.cons_append, hnum]
  rfl

mutual
theorem scanOnce_encode : ∀ (n level : Nat) (j : Value) (rest : List Char), size j ≤ n → WF j →
    Delimited rest → scanOnce n (encode level j ++ rest) = some (j, rest)
  | 0, _, j, _, hs, _, _ => absurd hs (Nat.not_le.mpr (size_pos j))
  | _ + 1, _, .null, _, _, _, _ => rfl
  | _ + 1, _, .bool true, _, _, _, _ => rfl
  | _ + 1, _, .bool false, _, _, _, _ => rfl
  | n + 1, level, .num k, _, _, _, hr => scanOnce_num level n k hr
  | _ + 1, _, .float _, _, _, hwf, _ => hwf.elim
  | n + 1, level, .str s, rest, _, _, _ => scanOnce_str level n s rest
  | _ + 1, _, .arr [], _, _, _, _ => rfl
  | n + 1, level, .arr (x :: xs), rest, hs, hwf, _ => by
    obtain ⟨c, r, hcr, -, hc, -⟩ := encode_head (level + 1) hwf.1
    simp only [encode, List.cons_append, List.append_assoc, List.singleton_append, List.nil_append]
    rw [scanOnce, if_neg (by decide), if_neg (by decide), if_pos rfl, skipWs_append_newline,
      skipWs_encode _ hwf.1, hcr, List.cons_append]
    dsimp only
    rw [if_neg hc, ← List.cons_append, ← hcr,
      scanItems_encode n level x xs rest (by simp only [size] at hs; omega) hwf.1 hwf.2]
    rfl
  | _ + 1, _, .obj [], _, _, _, _ => rfl
  | n + 1, level, .obj ((k, v) :: fs), rest, hs, hwf, _ => by
    simp only [encode, encodeString, List.cons_append, List.append_assoc, List.singleton_append,
      List.nil_append]
    rw [scanOnce, if_neg (by decide), if_pos rfl, skipWs_append_newline, skipWs_cons (by decide)]
    dsimp only
    rw [if_neg (by decide), if_pos rfl,
      scanMembers_encode n level k v fs rest (by simp only [size] at hs; omega) hwf.2.1 hwf.2.2]
    simp only [Option.map_some', dictOfPairs_of_nodup hwf.1]

theorem scanItems_encode : ∀ (n level : Nat) (x : Value) (xs : List Value) (rest : List Char),
    sizeItems (x :: xs) ≤ n → WF x → ItemsWF xs →
    scanItems n (encode (level + 1) x ++ (encodeItems (level + 1) xs ++ (newline level ++ ']' :: rest))) =
      some (x :: xs, rest)
  | 0, _, x, xs, _, hs, _, _ => absurd hs (by simp only [sizeItems]; omega)
  | n + 1, level, x, [], rest, hs, hx, _ => by
    rw [scanItems, scanOnce_encode n (level + 1) x _ (by simp only [sizeItems] at hs; omega) hx
      (delimited_items _ _ _ _)]
    dsimp only
    rw [encodeItems, List.nil_append, skipWs_append_newline, skipWs_cons (by decide)]
    dsimp only
    rw [if_pos rfl]
  | n + 1, level, x, y :: ys, rest, hs, hx, hys => by
    rw [scanItems, scanOnce_encode n (level + 1) x _ (by simp only [sizeItems] at hs; omega) hx
      (delimited_items _ _ _ _)]
    dsimp only
    simp only [encodeItems, List.cons_append, List.append_assoc]
    rw [skipWs_cons (by decide)]
    dsimp only
    rw [if_neg (by decide), if_pos rfl, skipWs_append_newline, skipWs_encode _ hys.1,
      scanItems_encode n level y ys rest (by simp only [sizeItems] at hs ⊢; omega) hys.1 hys.2]
    rfl

theorem scanMembers_encode : ∀ (n level : Nat) (k : String) (v : Value) (fs : List (String × Value))
    (rest : List Char), sizeFields ((k, v) :: fs) ≤ n → WF v → FieldsWF fs →
    scanMembers n (k.toList.flatMap escapeChar ++ '"' :: ':' :: ' ' :: (encode (level + 1) v ++
      (encodeFields (level + 1) fs ++ (newline level ++ '}' :: rest)))) =
      some ((k, v) :: fs, rest)
  | 0, _, _, _, _, _, hs, _, _ => absurd hs (by simp only [sizeFields]; omega)
  | n + 1, level, k, v, fs, rest, hs, hv, hfs => by
    rw [scanMembers, scanString_escaped]
    dsimp only
    rw [skipWs_cons (by decide)]
    dsimp only
    rw [if_pos rfl, skipWs_space, skipWs_encode _ hv,
      scanOnce_encode n (level + 1) v _ (by simp only [sizeFields] at hs; omega) hv
        (delimited_fields _ _ _ _)]
    dsimp only
    match fs, hs, hfs with
    | [], _, _ =>
      rw [encodeFields, List.nil_append, skipWs_append_newline, skipWs_cons (by decide)]
      dsimp only
      rw [if_pos rfl]
      rfl
    | (k', v') :: fs', hs, hfs' =>
      simp only [encodeFields, encodeString, List.cons_append, List.append_assoc,
        List.singleton_append, List.nil_append]
      rw [skipWs_cons (by decide)]
      dsimp only
      rw [if_neg (by decide), if_pos rfl, skipWs_append_newline, skipWs_cons (by decide)]
      dsimp only
      rw [if_pos rfl, scanMembers_encode n level k' v' fs' rest
        (by simp only [sizeFields] at hs ⊢; omega) hfs'.1 hfs'.2]
      rfl
end

mutual
theorem size_le_length (level : Nat) : ∀ j : Value, WF j → size j ≤ (encode level j).length
  | .null, _ | .bool true, _ | .bool false, _ | .str _, _ | .arr [], _ | .obj [], _ => by
    simp [size, sizeItems, sizeFields, encode, encodeString]
  | .num k, _ => by
    obtain ⟨c, r, hcr, -⟩ := toString_head k
    show 1 ≤ (toString k).toList.length
    rw [hcr, List.length_cons]
    omega
  | .float _, hwf => hwf.elim
  | .arr (x :: xs), hwf => by
    have := size_le_length (level + 1) x hwf.1
    have := sizeItems_le_length (level + 1) xs hwf.2
    simp only [size, sizeItems, encode, List.length_append, List.length_cons, newline]
    omega
  | .obj ((k, v) :: fs), hwf => by
    have := size_le_length (level + 1) v hwf.2.1
    have := sizeFields_le_length (level + 1) fs hwf.2.2
    simp only [size, sizeFields, encode, List.length_append, List.length_cons, newline]
    omega
theorem sizeItems_le_length (level : Nat) :
    ∀ xs : List Value, ItemsWF xs → sizeItems xs ≤ (encodeItems level xs).length
  | [], _ => Nat.le_refl 0
  | x :: xs, hwf => by
    have := size_le_length level x hwf.1
    have := sizeItems_le_length level xs hwf.2
    simp only [sizeItems, encodeItems, List.length_append, List.length_cons]
    omega
theorem sizeFields_le_length (level : Nat) :
    ∀ fs : List (String × Value), FieldsWF fs → sizeFields fs ≤ (encodeFields level fs).length
  | [], _ => Nat.le_refl 0
  | (k, v) :: fs, hwf => by
    have := size_le_length level v hwf.1
    have := sizeFields_le_length level fs hwf.2
    simp only [sizeFields, encodeFields, List.length_append, List.length_cons]
    omega
end

/-- Reading back what `json.dump` wrote gives the value again. -/
theorem loads_dumps (j : Value) (hwf : WF j) : loads (dumps j) = some j := by
  have h := scanOnce_encode ((dumps j).length + 1) 0 j [] (Nat.le_succ_of_le (size_le_length 0 j hwf))
    hwf (fun _ _ h => nomatch h)
  rw [List.append_nil] at h
  rw [loads, show (dumps j).toList = encode 0 j from rfl, ← List.append_nil (encode 0 j),
    skipWs_encode _ hwf, List.append_nil, h]
  rfl

end ScipSync.Workspace.Json
