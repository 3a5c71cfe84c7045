import Mathlib.Data.List.Basic
import Mathlib.Tactic.Ring
import Mathlib.Data.Nat.Digits

/-! Python's text operations as the model uses them.

`str(n)` of a non-negative integer is Lean's `toString n`, the decimal digits of
`n`. Reading them back (`digitsValue`) gives `n` again, so `str` is injective:
the workspace's link ids `str(1), str(2), ...` are pairwise distinct, and a
decimal number in a JSON document reads back as the integer written.

`str.strip()`, `str.startswith` and `str.endswith` work on the characters of the
string, with Python's own whitespace (`str.isspace`). -/

namespace ScipSync.Basic.Text

/-! ## Decimal digits -/

/-- The value of a run of decimal digits, most significant first. -/
def digitsValue (ds : List Char) : Nat :=
  ds.foldl (fun acc c => acc * 10 + (c.toNat - '0'.toNat)) 0

theorem digitsValue_append_singleton (ds : List Char) (c : Char) :
    digitsValue (ds ++ [c]) = digitsValue ds * 10 + (c.toNat - '0'.toNat) := by
  simp only [digitsValue, List.foldl_append, List.foldl_cons, List.foldl_nil]

theorem digitChar_value : ∀ k < 10, (Nat.digitChar k).toNat - '0'.toNat = k := by
  decide

theorem digitChar_isDigit : ∀ k < 10, (Nat.digitChar k).isDigit = true := by
  decide

theorem toDigitsCore_append : ∀ (fuel n : Nat) (ds : List Char),
    Nat.toDigitsCore 10 fuel n ds = Nat.toDigitsCore 10 fuel n [] ++ ds
  | 0, _, _ => rfl
  | fuel + 1, n, ds => by
    simp only [Nat.toDigitsCore]
    split
    · rfl
    · rw [toDigitsCore_append fuel _ (_ :: ds), toDigitsCore_append fuel _ [_],
        List.append_assoc, List.singleton_append]

/-- Enough fuel gives the same digits. -/
theorem toDigitsCore_fuel : ∀ (f1 f2 n : Nat) (ds : List Char), n < f1 → n < f2 →
    Nat.toDigitsCore 10 f1 n ds = Nat.toDigitsCore 10 f2 n ds
  | 0, _, _, _, h, _ => absurd h (Nat.not_lt_zero _)
  | _ + 1, 0, _, _, _, h => absurd h (Nat.not_lt_zero _)
  | f1 + 1, f2 + 1, n, ds, h1, h2 => by
    simp only [Nat.toDigitsCore]
    split
    · rfl
    · exact toDigitsCore_fuel f1 f2 _ _ (by omega) (by omega)

/-- The last digit comes off first: `str(n) = str(n // 10) + str(n % 10)` for `n ≥ 10`. -/
theorem toDigits_of_le {n : Nat} (h : 10 ≤ n) :
    Nat.toDigits 10 n = Nat.toDigits 10 (n / 10) ++ [Nat.digitChar (n % 10)] := by
  rw [Nat.toDigits, Nat.toDigitsCore, if_neg (by omega), toDigitsCore_append, Nat.toDigits,
    toDigitsCore_fuel n (n / 10 + 1) _ _ (by omega) (by omega)]

theorem toDigits_of_lt {n : Nat} (h : n < 10) : Nat.toDigits 10 n = [Nat.digitChar n] := by
  rw [Nat.toDigits, Nat.toDigitsCore, if_pos (Nat.div_eq_of_lt h), Nat.mod_eq_of_lt h]

theorem digitsValue_toDigits (n : Nat) : digitsValue (Nat.toDigits 10 n) = n := by
  induction n using Nat.strong_induction_on with
  | _ n ih =>
    rcases Nat.lt_or_ge n 10 with h | h
    · rw [toDigits_of_lt h, ← List.nil_append [_], digitsValue_append_singleton,
        digitChar_value n h]
      simp [digitsValue]
    · rw [toDigits_of_le h, digitsValue_append_singleton, ih _ (by omega),
        digitChar_value _ (Nat.mod_lt _ (by omega))]
      omega

theorem isDigit_of_mem_toDigits (n : Nat) : ∀ c ∈ Nat.toDigits 10 n, c.isDigit = true := by
  induction n using Nat.strong_induction_on with
  | _ n ih =>
    rcases Nat.lt_or_ge n 10 with h | h
    · rw [toDigits_of_lt h]
      simpa using digitChar_isDigit n h
    · rw [toDigits_of_le h]
      intro c hc
      rcases List.mem_append.mp hc with hc | hc
      · exact ih (n / 10) (by omega) c hc
      · rw [List.mem_singleton.mp hc]
        exact digitChar_isDigit _ (Nat.mod_lt n (by omega))

/-- A positive number's digits do not start with `0`. -/
theorem toDigits_head (n : Nat) (hn : 0 < n) :
    ∃ c cs, Nat.toDigits 10 n = c :: cs ∧ c.isDigit = true ∧ c ≠ '0' := by
  induction n using Nat.strong_induction_on with
  | _ n ih =>
    rcases Nat.lt_or_ge n 10 with h | h
    · refine ⟨_, [], toDigits_of_lt h, digitChar_isDigit n h, fun h0 => ?_⟩
      have := digitChar_value n h
      rw [h0] at this
      omega
    · obtain ⟨c, cs, hcs, hc⟩ := ih (n / 10) (by omega) (by omega)
      exact ⟨c, cs ++ [_], by rw [toDigits_of_le h, hcs]; rfl, hc⟩

/-- `str` is injective on non-negative integers. -/
theorem toString_injective {m n : Nat} (h : toString m = toString n) : m = n := by
  have h' : Nat.toDigits 10 m = Nat.toDigits 10 n := congrArg String.toList h
  rw [← digitsValue_toDigits m, ← digitsValue_toDigits n, h']

/-- The code points of `str.isalnum` on ASCII: digits, capitals, small letters. -/
theorem toNat_of_isAlphanum {c : Char} (h : c.isAlphanum) :
    (48 ≤ c.toNat ∧ c.toNat ≤ 57) ∨ (65 ≤ c.toNat ∧ c.toNat ≤ 90) ∨
      (97 ≤ c.toNat ∧ c.toNat ≤ 122) := by
  simp only [Char.isAlphanum, Char.isAlpha, Char.isUpper, Char.isLower, Char.isDigit,
    Bool.or_eq_true, Bool.and_eq_true, decide_eq_true_eq, UInt32.le_def, BitVec.le_def,
    UInt32.toBitVec_ofNat, BitVec.toNat_ofNat] at h
  simp only [Char.toNat, UInt32.toNat]
  omega

/-! ## Whitespace and affixes -/

/-- `str.isspace` on one character. -/
def isPySpace (c : Char) : Bool :=
  let n := c.toNat
  (9 ≤ n && n ≤ 13) || (28 ≤ n && n ≤ 32) || n == 0x85 || n == 0xA0 || n == 0x1680 ||
    (0x2000 ≤ n && n ≤ 0x200A) || n == 0x2028 || n == 0x2029 || n == 0x202F ||
    n == 0x205F || n == 0x3000

/-- `str.strip()`. -/
def pyStrip (s : String) : String :=
  ⟨((s.toList.dropWhile isPySpace).reverse.dropWhile isPySpace).reverse⟩

/-- Reading a file in text mode: `\r\n` and a lone `\r` become `\n`. -/
def translateNewlines : List Char → List Char
  | '\r' :: '\n' :: rest => '\n' :: translateNewlines rest
  | '\r' :: rest => '\n' :: translateNewlines rest
  | c :: rest => c :: translateNewlines rest
  | [] => []

/-- `s.split("\n")`. -/
def splitNewline : List Char → List (List Char)
  | [] => [[]]
  | c :: rest =>
    if c = '\n' then [] :: splitNewline rest
    else match splitNewline rest with
      | line :: lines => (c :: line) :: lines
      | [] => [[c]]

theorem translateNewlines_append {l : List Char} (h : '\r' ∉ l) (r : List Char) :
    translateNewlines (l ++ r) = l ++ translateNewlines r := by
  induction l with
  | nil => rfl
  | cons c l ih =>
    rw [List.mem_cons, not_or] at h
    rw [List.cons_append, List.cons_append, ← ih h.2,
      translateNewlines.eq_3 _ _ (fun _ hc _ => h.1 hc.symm) fun hc => h.1 hc.symm]

theorem splitNewline_append {l : List Char} (h : '\n' ∉ l) (r : List Char) :
    splitNewline (l ++ '\n' :: r) = l :: splitNewline r := by
  induction l with
  | nil => simp [splitNewline]
  | cons c l ih =>
    rw [List.mem_cons, not_or] at h
    rw [List.cons_append, splitNewline, if_neg (Ne.symm h.1), ih h.2]

/-- `f.read().strip()` of a file with text `text`. -/
def readStripped (text : String) : String := pyStrip ⟨translateNewlines text.toList⟩

theorem pyStrip_cons {c : Char} (h : isPySpace c = true) (l : List Char) :
    pyStrip ⟨c :: l⟩ = pyStrip ⟨l⟩ := by
  simp only [pyStrip, String.toList, List.dropWhile_cons_of_pos h]

theorem dropWhile_of_head? {p : Char → Bool} :
    ∀ {l : List Char}, (∀ c ∈ l.head?, p c = false) → l.dropWhile p = l
  | [], _ => rfl
  | c :: _, h => List.dropWhile_cons_of_neg (by simpa using h c rfl)

/-- A string whose first and last characters are not whitespace is stripped. -/
theorem pyStrip_of_ends {l : List Char} (hh : ∀ c ∈ l.head?, isPySpace c = false)
    (hl : ∀ c ∈ l.getLast?, isPySpace c = false) : pyStrip ⟨l⟩ = ⟨l⟩ := by
  simp only [pyStrip, String.toList, dropWhile_of_head? hh, dropWhile_of_head? (l := l.reverse)
    (by rwa [List.head?_reverse]), List.reverse_reverse]

/-- The last character of a stripped string is not whitespace. -/
theorem getLast?_pyStrip (s : String) : ∀ c ∈ (pyStrip s).toList.getLast?, isPySpace c = false := by
  intro c hc
  have hd := List.head?_dropWhile_not isPySpace (s.data.dropWhile isPySpace).reverse
  simp only [pyStrip, String.toList, List.getLast?_reverse] at hc
  rwa [hc] at hd

/-- A string that starts with a character other than whitespace and ends with a
stripped string is stripped. -/
theorem pyStrip_append {a b : String} (ha : a.toList ≠ [])
    (hh : ∀ c ∈ a.toList.head?, isPySpace c = false) (hb : b ≠ "") (hs : pyStrip b = b) :
    pyStrip (a ++ b) = a ++ b := by
  have hb' : b.toList ≠ [] := fun h => hb (String.ext h)
  show pyStrip ⟨a.toList ++ b.toList⟩ = ⟨a.toList ++ b.toList⟩
  apply pyStrip_of_ends
  · obtain ⟨c, t, hct⟩ := List.exists_cons_of_ne_nil ha
    rw [hct] at hh ⊢
    exact hh
  · rw [List.getLast?_append, List.getLast?_eq_getLast _ hb', Option.or_some,
      ← List.getLast?_eq_getLast _ hb']
    exact hs ▸ getLast?_pyStrip b

theorem length_pyStrip_le (s : String) : (pyStrip s).length ≤ s.length := by
  simp only [pyStrip, String.length, List.length_reverse]
  calc _ ≤ ((s.data.dropWhile isPySpace).reverse).length := (List.dropWhile_suffix _).length_le
    _ ≤ s.data.length := by rw [List.length_reverse]; exact (List.dropWhile_suffix _).length_le

/-- `s.replace(old, new)` on the characters of `s`, the first `skip` of which
finish an occurrence of `old` already replaced: occurrences are replaced left to
right and never overlap. -/
def replaceFrom (old new : List Char) : Nat → List Char → List Char
  | _, [] => []
  | skip + 1, _ :: rest => replaceFrom old new skip rest
  | 0, c :: rest =>
    if old.isPrefixOf (c :: rest) then new ++ replaceFrom old new (old.length - 1) rest
    else c :: replaceFrom old new 0 rest

/-- `s.replace(old, new)`. An empty `old` puts `new` before every character and at
the end. -/
def pyReplace (s old new : String) : String :=
  if old = "" then ⟨new.toList ++ s.toList.flatMap (· :: new.toList)⟩
  else ⟨replaceFrom old.toList new.toList 0 s.toList⟩

/-- The characters a replaced occurrence still covers are skipped. -/
theorem replaceFrom_skip (old new : List Char) : ∀ (pre s : List Char),
    replaceFrom old new pre.length (pre ++ s) = replaceFrom old new 0 s
  | [], _ => rfl
  | _ :: pre, s => by
    rw [List.length_cons, List.cons_append, replaceFrom, replaceFrom_skip old new pre s]

/-- A text in which `old` does not occur is left as it is. -/
theorem replaceFrom_of_not_infix {old : List Char} (new : List Char) :
    ∀ {s : List Char}, ¬ old <:+: s → replaceFrom old new 0 s = s
  | [], _ => rfl
  | c :: s, h => by
    have hpre : ¬ old <+: c :: s := fun hp => h hp.isInfix
    rw [replaceFrom, if_neg (mt List.isPrefixOf_iff_prefix.mp hpre),
      replaceFrom_of_not_infix new fun hi => h (List.infix_cons hi)]

/-- `(old + s).replace(old, new)` is `new + s` when `old` does not occur in `s`. -/
theorem replaceFrom_leading {old : List Char} (new : List Char) (hold : old ≠ []) {s : List Char}
    (hs : ¬ old <:+: s) : replaceFrom old new 0 (old ++ s) = new ++ s := by
  obtain ⟨c, old, rfl⟩ := List.exists_cons_of_ne_nil hold
  have hpre : (c :: old).isPrefixOf (c :: (old ++ s)) = true :=
    List.isPrefixOf_iff_prefix.mpr (List.prefix_append (c :: old) s)
  rw [List.cons_append, replaceFrom, if_pos hpre, List.length_cons, Nat.add_sub_cancel,
    replaceFrom_skip, replaceFrom_of_not_infix new hs]

/-- `(old + s).replace(old, "")` is `s` when `old` does not occur in `s`. -/
theorem pyReplace_leading {old s : String} (hold : old ≠ "") (hs : ¬ old.toList <:+: s.toList) :
    pyReplace (old ++ s) old "" = s := by
  rw [pyReplace, if_neg hold]
  show (⟨replaceFrom old.toList [] 0 (old.toList ++ s.toList)⟩ : String) = s
  rw [@replaceFrom_leading old.toList [] (fun h => hold (String.ext h)) s.toList hs]
  rfl

/-- `s.startswith(p)`. -/
def startsWith (s p : String) : Bool := p.toList.isPrefixOf s.toList

/-- `s.endswith(p)`. -/
def endsWith (s p : String) : Bool := p.toList.isSuffixOf s.toList

/-- A string ends with the last character of any non-empty string it ends with. -/
theorem getLast?_of_endsWith {s p : String} (h : endsWith s p = true) (hp : p.toList ≠ []) :
    s.toList.getLast? = p.toList.getLast? := by
  obtain ⟨t, ht⟩ := List.isSuffixOf_iff_suffix.mp h
  rw [← ht, List.getLast?_append]
  cases hl : p.toList.getLast? with
  | none => exact absurd (List.getLast?_eq_none_iff.mp hl) hp
  | some c => rfl

end ScipSync.Basic.Text
