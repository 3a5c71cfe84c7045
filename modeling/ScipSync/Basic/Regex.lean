import Mathlib.Data.List.Basic

/-! `re.search` on the patterns the synchronizer builds: an optional `^`, a run of
atoms (a literal character, or `.` for any character but a newline), each once or
with `+`, `*` or `?`, and an optional `$`. Without `re.MULTILINE`, `^` matches only
at the start of the string and `$` at its end or just before a newline that ends
it. A pattern with any other construct is outside the fragment, as is one that
`re.compile` rejects (a quantifier with nothing to repeat): `reSearch` returns
`none` on it.

The matcher backtracks over the pieces; whether some match exists does not depend
on the order in which a quantifier tries its lengths. A pattern of literal
characters compiles to those characters (`parsePieces_literal`) and matches exactly
the strings it is a prefix of, at an allowed end (`matchHere_literal`). -/

namespace ScipSync.Basic.Regex

/-- A pattern atom: a literal character, or `.`. -/
inductive Atom where
  | lit (c : Char)
  | any
  deriving DecidableEq, Repr

/-- An atom once (`a`), one or more times (`a+`), any number of times (`a*`), or
at most once (`a?`). -/
inductive Piece where
  | one (a : Atom)
  | plus (a : Atom)
  | star (a : Atom)
  | opt (a : Atom)
  deriving DecidableEq, Repr

/-- A compiled pattern: `^`, the pieces, `$`. -/
structure Pattern where
  anchorStart : Bool
  pieces : List Piece
  anchorEnd : Bool
  deriving DecidableEq, Repr

/-! ## Compiling a pattern -/

/-- The characters with a meaning of their own in a pattern. -/
def specialChars : List Char :=
  ['.', '^', '$', '*', '+', '?', '{', '}', '[', ']', '\\', '|', '(', ')']

/-- Whether a pattern character has a meaning of its own. -/
def isSpecial (c : Char) : Bool := c ∈ specialChars

/-- The atom a pattern character stands for; `none` for the characters the fragment
leaves out. -/
def parseAtom (c : Char) : Option Atom :=
  if c = '.' then some .any else if isSpecial c then none else some (.lit c)

/-- The pieces of a pattern without its anchors: each atom with the quantifier after
it. `none` outside the fragment: a character it leaves out, a quantifier with
nothing to repeat, or a lazy or possessive quantifier. -/
def parsePieces : List Char → Option (List Piece)
  | [] => some []
  | [c] => (parseAtom c).map fun a => [.one a]
  | c :: q :: rest =>
    (parseAtom c).bind fun a =>
      if q = '+' then (parsePieces rest).map (.plus a :: ·)
      else if q = '*' then (parsePieces rest).map (.star a :: ·)
      else if q = '?' then (parsePieces rest).map (.opt a :: ·)
      else (parsePieces (q :: rest)).map (.one a :: ·)

/-- A leading `^`, if there is one, and the rest of the pattern. -/
def splitStart : List Char → Bool × List Char
  | '^' :: body => (true, body)
  | body => (false, body)

/-- A trailing `$`, if there is one, and the rest of the pattern. -/
def splitEnd (body : List Char) : Bool × List Char :=
  if body.getLast? = some '$' then (true, body.dropLast) else (false, body)

/-- `re.compile(pattern)`: a leading `^`, a trailing `$`, and the pieces between. -/
def compile (pattern : String) : Option Pattern :=
  let (anchorStart, body) := splitStart pattern.toList
  let (anchorEnd, body) := splitEnd body
  (parsePieces body).map fun pieces => ⟨anchorStart, pieces, anchorEnd⟩

/-! ## Matching -/

/-- Whether an atom matches a character. -/
def Atom.matches : Atom → Char → Bool
  | .lit c, d => c == d
  | .any, d => d != '\n'

/-- Whether a match may end before `rest`: anywhere, or under `$` at the end of the
string or just before a newline that ends it. -/
def endOk (anchorEnd : Bool) (rest : List Char) : Bool :=
  !anchorEnd || rest == [] || rest == ['\n']

/-- `a*` followed by what `k` accepts: a run of characters that `a` matches, then `k`. -/
def starThen (a : Atom) (k : List Char → Bool) : List Char → Bool
  | [] => k []
  | c :: s => k (c :: s) || (a.matches c && starThen a k s)

/-- Whether the pieces match a prefix of the string at whose end a match may end. -/
def matchHere (anchorEnd : Bool) : List Piece → List Char → Bool
  | [], s => endOk anchorEnd s
  | .one a :: ps, s =>
    match s with
    | c :: s => a.matches c && matchHere anchorEnd ps s
    | [] => false
  | .plus a :: ps, s =>
    match s with
    | c :: s => a.matches c && starThen a (matchHere anchorEnd ps) s
    | [] => false
  | .star a :: ps, s => starThen a (matchHere anchorEnd ps) s
  | .opt a :: ps, s =>
    matchHere anchorEnd ps s ||
      match s with
      | c :: s => a.matches c && matchHere anchorEnd ps s
      | [] => false

/-- A search: a match at the start of the string under `^`, else at any position. -/
def Pattern.search (r : Pattern) (s : List Char) : Bool :=
  if r.anchorStart then matchHere r.anchorEnd r.pieces s
  else s.tails.any (matchHere r.anchorEnd r.pieces)

/-- `re.search(pattern, string) is not None`; `none` for a pattern outside the
fragment. -/
def reSearch (pattern string : String) : Option Bool :=
  (compile pattern).map (·.search string.toList)

/-- `bool(re.search(pattern, string))` as `filter_list_by_regex` uses it, on the
patterns of the fragment. -/
def search (pattern string : String) : Bool := (reSearch pattern string).getD false

/-! ## Literal patterns -/

theorem parseAtom_literal {c : Char} (h : isSpecial c = false) : parseAtom c = some (.lit c) := by
  have hdot : c ≠ '.' := fun e => by rw [e] at h; exact absurd h (by decide)
  rw [parseAtom, if_neg hdot, if_neg (by rw [h]; decide)]

/-- A pattern body of literal characters is those characters, each once. -/
theorem parsePieces_literal : ∀ {l : List Char}, (∀ c ∈ l, isSpecial c = false) →
    parsePieces l = some (l.map fun c => .one (.lit c))
  | [], _ => rfl
  | [c], h => by rw [parsePieces, parseAtom_literal (h c (List.mem_singleton_self _))]; rfl
  | c :: q :: rest, h => by
    have hq := h q (List.mem_cons_of_mem _ (List.mem_cons_self _ _))
    have hne : ∀ d, isSpecial d = true → q ≠ d := fun d hd e => by rw [e, hd] at hq; cases hq
    rw [parsePieces, parseAtom_literal (h c (List.mem_cons_self _ _)), Option.some_bind,
      if_neg (hne _ (by decide)), if_neg (hne _ (by decide)), if_neg (hne _ (by decide)),
      parsePieces_literal fun d hd => h d (List.mem_cons_of_mem _ hd)]
    rfl

/-- Literal pieces match exactly the strings they are a prefix of, at an allowed end. -/
theorem matchHere_literal (anchorEnd : Bool) : ∀ (l s : List Char),
    matchHere anchorEnd (l.map fun c => .one (.lit c)) s =
      (l.isPrefixOf s && endOk anchorEnd (s.drop l.length))
  | [], s => by simp [matchHere]
  | c :: l, [] => by simp [matchHere, List.isPrefixOf]
  | c :: l, d :: s => by
    simp only [List.map_cons, matchHere, Atom.matches, matchHere_literal anchorEnd l s,
      List.isPrefixOf, Bool.and_assoc, List.length_cons, List.drop_succ_cons]

/-- `^`, literal characters and, under `anchorEnd`, `$` compile to those characters
anchored at the start. -/
theorem compile_literal {l : List Char} (hl : ∀ c ∈ l, isSpecial c = false) (anchorEnd : Bool) :
    compile ⟨'^' :: (l ++ if anchorEnd then ['$'] else [])⟩ =
      some ⟨true, l.map fun c => .one (.lit c), anchorEnd⟩ := by
  have hend : splitEnd (l ++ if anchorEnd then ['$'] else []) = (anchorEnd, l) := by
    unfold splitEnd
    cases anchorEnd
    · rw [if_neg Bool.false_ne_true, List.append_nil, if_neg fun h =>
        absurd (hl _ (List.mem_of_getLast?_eq_some h)) (by decide)]
    · rw [if_pos rfl, List.getLast?_concat, if_pos rfl, List.dropLast_concat]
  simp only [compile, String.toList, splitStart, hend, parsePieces_literal hl, Option.map_some']

/-- A literal pattern after `^` finds the strings it is a prefix of, ending where `$`
allows. -/
theorem search_literal {l : List Char} (hl : ∀ c ∈ l, isSpecial c = false) (anchorEnd : Bool)
    (s : String) :
    search ⟨'^' :: (l ++ if anchorEnd then ['$'] else [])⟩ s =
      (l.isPrefixOf s.toList && endOk anchorEnd (s.toList.drop l.length)) := by
  rw [search, reSearch, compile_literal hl]
  exact matchHere_literal anchorEnd l s.toList

/-- Under `$`, a literal prefix of a string without a newline ends the match only at
the end of the string. -/
theorem isPrefixOf_and_endOk {l s : List Char} (hs : '\n' ∉ s) :
    (l.isPrefixOf s && endOk true (s.drop l.length)) = decide (s = l) := by
  by_cases h : l <+: s
  · obtain ⟨t, rfl⟩ := h
    rw [List.isPrefixOf_iff_prefix.mpr (List.prefix_append _ _), List.drop_left]
    cases t with
    | nil => simp [endOk]
    | cons c t =>
      have ht : c = '\n' → t ≠ [] := fun hc h0 => hs (by simp [hc, h0])
      have hne : l ++ c :: t ≠ l := fun e => by simpa using congrArg List.length e
      simpa [endOk, hne] using ht
  · have hs' : s ≠ l := fun e => h (e ▸ List.prefix_refl l)
    rw [(Bool.not_eq_true _).mp (mt List.isPrefixOf_iff_prefix.mp h), Bool.false_and,
      decide_eq_false hs']

/-- A literal pattern between `^` and `$` finds exactly itself in a string without a
newline. -/
theorem search_anchored_literal {p s : String} (hp : ∀ c ∈ p.toList, isSpecial c = false)
    (hs : '\n' ∉ s.toList) : search ("^" ++ p ++ "$") s = decide (s = p) := by
  have := search_literal hp true s
  rw [if_pos rfl, isPrefixOf_and_endOk hs] at this
  rw [show "^" ++ p ++ "$" = ⟨'^' :: (p.toList ++ ['$'])⟩ from rfl, this]
  exact decide_eq_decide.mpr String.ext_iff.symm

/-- A literal pattern after `^` finds exactly the strings it begins. -/
theorem search_prefix_literal {p s : String} (hp : ∀ c ∈ p.toList, isSpecial c = false) :
    search ("^" ++ p) s = p.toList.isPrefixOf s.toList := by
  have := search_literal hp false s
  rw [if_neg Bool.false_ne_true, List.append_nil] at this
  rw [show "^" ++ p = ⟨'^' :: p.toList⟩ from rfl, this]
  simp only [endOk, Bool.not_false, Bool.true_or, Bool.and_true]

end ScipSync.Basic.Regex
