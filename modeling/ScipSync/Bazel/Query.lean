import ScipSync.Workspace.Json
import ScipSync.Sync.Main

/-! The Bazel queries of a sync (bazel/execute_query.py, scip_utils.py).

`get_dependency_graph` has `execute_query` write the text `_query_string` builds to a
query file for `bazel query`, and `get_mnemonic_output` writes its own query for
`bazel aquery`. Both join the quoted targets with ` + `.

The texts are read back with a parser for the part of Bazel's query language they
use: words, quoted or bare; unions with `+`, grouped to the left; and the functions
`deps`, `rdeps`, `attr`, `kind`, `filter` and `mnemonic`. A quoted word runs to the
next double quote, and neither function escapes one, so a text reads as the query
its docstring describes when the targets, kinds, tags, universe and filter hold no
double quote (`parseQuery_queryString`).

`execute_query` keeps the lines of Bazel's output that decode as JSON and drops the
others silently: its `finally: continue` discards the exception. It raises only on a
non-zero exit when the query is not a soft fail (`executeQuery_streamOutput`). -/

namespace ScipSync.Bazel.Query
open ScipSync.Basic.Text ScipSync.Workspace.Json ScipSync.Sync.Main ScipSync.Workspace.Populate

/-! ## The texts -/

/-- `" + ".join(f'"{target}"' for target in targets)`: the union of the quoted
targets, as both queries write it. -/
def unionOf (targets : List String) : String :=
  " + ".intercalate (targets.map fun target => "\"" ++ target ++ "\"")

/-- `_query_string`. An error is the message of the `RuntimeError` it raises. `None`
and an empty list or text are read alike: the function only tests them for truth. -/
def queryString (targets queryKinds : List String) (queryDeps queryRdeps : Bool)
    (queryDepth : Option Int) (queryTags : List String) (queryRdepsUniverse queryFilter : String) :
    Except String String :=
  if targets = [] then .error "targets passed to _union must not be empty."
  else if queryDeps && queryRdeps then .error "query_deps and query_rdeps cannot be used together."
  else
    let queryString := unionOf targets
    let queryString :=
      if queryDeps || queryRdeps then
        let (queryFun, queryString) :=
          if queryRdeps then
            let univ := if queryRdepsUniverse = "" then "//..." else queryRdepsUniverse
            ("rdeps", "\"" ++ univ ++ "\", " ++ queryString)
          else ("deps", queryString)
        match queryDepth with
        | none => queryFun ++ "(" ++ queryString ++ ")"
        | some queryDepth => queryFun ++ "(" ++ queryString ++ ", " ++ toString queryDepth ++ ")"
      else queryString
    let queryString :=
      if queryTags = [] then queryString
      else
        let pattern := "|".intercalate (queryTags.map fun tag => "\\b" ++ tag ++ "\\b")
        "attr(tags, \"" ++ pattern ++ "\", " ++ queryString ++ ")"
    let queryString :=
      if queryKinds = [] then queryString
      else "kind(\"" ++ "|".intercalate queryKinds ++ "\", " ++ queryString ++ ")"
    let queryString :=
      if queryFilter = "" then queryString
      else "filter(\".*" ++ queryFilter ++ ".*\", " ++ queryString ++ ")"
    .ok queryString

/-- `_query_string` raises on an empty target list, and on `deps` asked for with
`rdeps`, each with its own message. -/
theorem queryString_eq_error (targets queryKinds : List String) (queryDeps queryRdeps : Bool)
    (queryDepth : Option Int) (queryTags : List String) (queryRdepsUniverse queryFilter m : String) :
    queryString targets queryKinds queryDeps queryRdeps queryDepth queryTags queryRdepsUniverse
        queryFilter = .error m ↔
      (targets = [] ∧ m = "targets passed to _union must not be empty.") ∨
      (targets ≠ [] ∧ queryDeps = true ∧ queryRdeps = true ∧
        m = "query_deps and query_rdeps cannot be used together.") := by
  rw [queryString]
  by_cases h1 : targets = []
  · rw [if_pos h1]
    simp [h1, eq_comm]
  · rw [if_neg h1]
    by_cases h2 : (queryDeps && queryRdeps) = true
    · rw [if_pos h2]
      simp [h1, eq_comm, Bool.and_eq_true_iff.mp h2]
    · rw [if_neg h2]
      refine iff_of_false Except.noConfusion ?_
      rintro (⟨h, -⟩ | ⟨-, hd, hr, -⟩)
      exacts [h1 h, h2 (by rw [hd, hr]; rfl)]

/-- `SUPPORTED_RULES` (scip_const.py): the rule kinds a sync queries. -/
def supportedRules : List String := ["java_library", "java_import", "java_test", "jvm_import"]

/-- The query `get_dependency_graph` has `execute_query` write: the deps of the
targets to the depth, kept to the supported rules. -/
def dependencyGraphQuery (targets : List String) (depth : Int) : Except String String :=
  queryString targets supportedRules true false (some depth) [] "//..." ""

/-- The query `get_mnemonic_output` writes for `bazel aquery`. -/
def mnemonicQuery (mnemonic : String) (targets : List String) : String :=
  "mnemonic(\"" ++ mnemonic ++ "\", " ++ unionOf targets ++ ")"

/-- The mnemonics `main` asks `get_mnemonic_output` for. -/
def syncMnemonic : String :=
  indexOutputMnemonic ++ "|" ++ javaTargetManifestMnemonic ++ "|" ++ unpackedJavaSourcesMnemonic

/-! ## The query language -/

/-- The expressions of Bazel's query language that the two texts use. A word is a
target pattern or a function's text argument, written quoted or bare alike. -/
inductive Expr where
  | word (w : String)
  | union (a b : Expr)
  | deps (x : Expr) (depth : Option Int)
  | rdeps (scope x : Expr) (depth : Option Int)
  | attr (name pattern : String) (x : Expr)
  | kind (pattern : String) (x : Expr)
  | filter (pattern : String) (x : Expr)
  | mnemonic (pattern : String) (x : Expr)
deriving Repr, DecidableEq

/-- The characters of a bare word. -/
def isWordChar (c : Char) : Bool :=
  c.isAlphanum || ['*', '/', '@', '.', '-', '_', ':', '$', '~', '[', ']'].contains c

/-- A word at the start of the text, and the text after it: quoted, up to the next
double quote; or bare, a run of word characters. -/
def parseWord (s : List Char) : Option (String × List Char) :=
  match s with
  | [] => none
  | c :: r =>
    if c = '"' then
      match r.dropWhile (· != '"') with
      | [] => none
      | _ :: rest => some (⟨r.takeWhile (· != '"')⟩, rest)
    else if isWordChar c then some (⟨s.takeWhile isWordChar⟩, s.dropWhile isWordChar)
    else none

/-- The text after the punctuation `c`, blanks before it skipped. -/
def token (c : Char) (s : List Char) : Option (List Char) :=
  match skipWs s with
  | d :: r => if d = c then some r else none
  | [] => none

/-- An integer word: digits, after a minus sign for a negative one. -/
def intOfWord (w : List Char) : Option Int :=
  match w with
  | [] => none
  | c :: ds =>
    if c = '-' then
      if ds ≠ [] ∧ ds.all Char.isDigit then some (-(digitsValue ds : Int)) else none
    else if w.all Char.isDigit then some (digitsValue w) else none

/-- The end of a `deps` or `rdeps` call: a closing bracket, or a comma, the depth and
a closing bracket. -/
def parseDepth (s : List Char) : Option (Option Int × List Char) :=
  match token ')' s with
  | some r => some (none, r)
  | none =>
    (token ',' s).bind fun r => (parseWord (skipWs r)).bind fun p =>
      (intOfWord p.1.toList).bind fun depth => (token ')' p.2).map fun r => (some depth, r)

/-- The functions whose first argument is a pattern word. -/
def patternFun (f : String) : Option (String → Expr → Expr) :=
  if f = "kind" then some .kind
  else if f = "filter" then some .filter
  else if f = "mnemonic" then some .mnemonic
  else none

mutual
/-- An expression: primaries joined by `+`, grouped to the left. -/
def parseExpr : Nat → List Char → Option (Expr × List Char)
  | 0, _ => none
  | fuel + 1, s => (parsePrimary fuel s).bind fun p => parseUnion fuel p.1 p.2

/-- The rest of a union whose left part is `x`. -/
def parseUnion : Nat → Expr → List Char → Option (Expr × List Char)
  | 0, _, _ => none
  | fuel + 1, x, s =>
    match token '+' s with
    | some r => (parsePrimary fuel r).bind fun p => parseUnion fuel (.union x p.1) p.2
    | none => some (x, s)

/-- A word, or a function applied to its arguments. -/
def parsePrimary : Nat → List Char → Option (Expr × List Char)
  | 0, _ => none
  | fuel + 1, s => (parseWord (skipWs s)).bind fun p =>
    match token '(' p.2 with
    | some r => parseCall fuel p.1 r
    | none => some (.word p.1, p.2)

/-- The arguments and the closing bracket of the function `f`. -/
def parseCall : Nat → String → List Char → Option (Expr × List Char)
  | 0, _, _ => none
  | fuel + 1, f, s =>
    if f = "deps" then
      (parseExpr fuel s).bind fun p => (parseDepth p.2).map fun q => (.deps p.1 q.1, q.2)
    else if f = "rdeps" then
      (parseExpr fuel s).bind fun p => (token ',' p.2).bind fun r =>
        (parseExpr fuel r).bind fun q => (parseDepth q.2).map fun d => (.rdeps p.1 q.1 d.1, d.2)
    else if f = "attr" then
      (parseWord (skipWs s)).bind fun n => (token ',' n.2).bind fun r =>
        (parseWord (skipWs r)).bind fun p => (token ',' p.2).bind fun r =>
          (parseExpr fuel r).bind fun q => (token ')' q.2).map fun r => (.attr n.1 p.1 q.1, r)
    else
      (patternFun f).bind fun g => (parseWord (skipWs s)).bind fun p => (token ',' p.2).bind fun r =>
        (parseExpr fuel r).bind fun q => (token ')' q.2).map fun r => (g p.1 q.1, r)
end

/-- The expression a whole query text reads as; none when it is not one. -/
def parseQuery (s : String) : Option Expr :=
  (parseExpr (s.toList.length + 1) s.toList).bind fun p =>
    if skipWs p.2 = [] then some p.1 else none

/-! ## What the texts ask for -/

/-- The union of the words `t`, then `ts`, grouped to the left. -/
def unionExpr (t : String) (ts : List String) : Expr :=
  ts.foldl (fun x t => .union x (.word t)) (.word t)

/-- What `_query_string` asks for, as its docstring describes it: the union of the
targets, under `rdeps` in its universe or under `deps` (to the depth, when one is
given), then kept to the tags, the kinds and the filter pattern, each when given. -/
def queryExpr (t : String) (ts queryKinds : List String) (queryDeps queryRdeps : Bool)
    (queryDepth : Option Int) (queryTags : List String) (queryRdepsUniverse queryFilter : String) :
    Expr :=
  let x := unionExpr t ts
  let x :=
    if queryRdeps then
      .rdeps (.word (if queryRdepsUniverse = "" then "//..." else queryRdepsUniverse)) x queryDepth
    else if queryDeps then .deps x queryDepth
    else x
  let x :=
    if queryTags = [] then x
    else .attr "tags" ("|".intercalate (queryTags.map fun tag => "\\b" ++ tag ++ "\\b")) x
  let x := if queryKinds = [] then x else .kind ("|".intercalate queryKinds) x
  if queryFilter = "" then x else .filter (".*" ++ queryFilter ++ ".*") x

/-! ## Words and tokens -/

theorem isWordChar_of_isDigit {c : Char} (h : c.isDigit = true) : isWordChar c = true := by
  simp [isWordChar, Char.isAlphanum, h]

theorem parseWord_quoted {w : List Char} (hw : '"' ∉ w) (r : List Char) :
    parseWord ('"' :: (w ++ '"' :: r)) = some (⟨w⟩, r) := by
  have hp : ∀ a ∈ w, (a != '"') = true := fun a ha => bne_iff_ne.mpr fun h => hw (h ▸ ha)
  rw [parseWord, if_pos rfl, List.dropWhile_append_of_pos hp, List.takeWhile_append_of_pos hp]
  simp

theorem parseWord_bare {c : Char} {w : List Char} (hc : c ≠ '"') (hw : ∀ a ∈ c :: w, isWordChar a = true)
    {r : List Char} (hr : ∀ d ∈ r.head?, isWordChar d = false) :
    parseWord (c :: w ++ r) = some (⟨c :: w⟩, r) := by
  have hr' : r.takeWhile isWordChar = [] ∧ r.dropWhile isWordChar = r := by
    cases r with
    | nil => exact ⟨rfl, rfl⟩
    | cons d r => simp [List.takeWhile_cons, List.dropWhile_cons, hr d rfl]
  rw [List.cons_append, parseWord, if_neg hc, if_pos (hw c (List.mem_cons_self _ _)), ← List.cons_append,
    List.takeWhile_append_of_pos hw, List.dropWhile_append_of_pos hw, hr'.1, hr'.2, List.append_nil]

theorem token_cons {c d : Char} (hd : isWs d = false) (s : List Char) :
    token c (d :: s) = if d = c then some s else none := by
  rw [token, skipWs_cons hd]

theorem token_space (c : Char) (s : List Char) : token c (' ' :: s) = token c s := by
  rw [token, token, skipWs_space]

/-- The digits of a depth, after a minus sign for a negative one. -/
theorem toString_int (d : Int) :
    ∃ c w, (toString d).toList = c :: w ∧ c ≠ '"' ∧ isWs c = false ∧
      ∀ a ∈ c :: w, isWordChar a = true := by
  obtain ⟨c, w, hcw, hc⟩ := toString_head d
  have hws : isWs c = false ∧ c ≠ '"' := by
    rcases hc with hc | rfl
    · exact ⟨(isWs_of_isDigit hc).1, by rintro rfl; cases hc⟩
    · decide
  refine ⟨c, w, hcw, hws.2, hws.1, ?_⟩
  rw [← hcw]
  cases d with
  | ofNat m => exact fun a ha => isWordChar_of_isDigit (isDigit_of_mem_toDigits m a ha)
  | negSucc m =>
    intro a ha
    rcases List.mem_cons.mp ha with rfl | ha
    · rfl
    · exact isWordChar_of_isDigit (isDigit_of_mem_toDigits (m + 1) a ha)

theorem intOfWord_toString (d : Int) : intOfWord (toString d).toList = some d := by
  cases d with
  | ofNat m =>
    show intOfWord (Nat.toDigits 10 m) = some (m : Int)
    have hdig := isDigit_of_mem_toDigits m
    obtain ⟨c, cs, hcs⟩ : ∃ c cs, Nat.toDigits 10 m = c :: cs := by
      rcases Nat.eq_zero_or_pos m with rfl | hm
      · exact ⟨'0', [], rfl⟩
      · obtain ⟨c, cs, h, -⟩ := toDigits_head m hm; exact ⟨c, cs, h⟩
    have hc : c ≠ '-' := by
      rintro rfl
      exact absurd (hdig '-' (hcs ▸ List.mem_cons_self _ _)) (by decide)
    rw [hcs, intOfWord, if_neg hc, if_pos (List.all_eq_true.mpr fun a ha => hdig a (hcs ▸ ha)), ← hcs,
      digitsValue_toDigits]
  | negSucc m =>
    show intOfWord ('-' :: Nat.toDigits 10 (m + 1)) = some (Int.negSucc m)
    obtain ⟨c, cs, hcs, -⟩ := toDigits_head (m + 1) (Nat.succ_pos m)
    rw [intOfWord, if_pos rfl, if_pos ⟨by rw [hcs]; exact List.cons_ne_nil _ _,
      List.all_eq_true.mpr (isDigit_of_mem_toDigits (m + 1))⟩, digitsValue_toDigits]
    rfl

/-- A text that can follow a whole expression: after its blanks it goes on with
neither a union nor an opening bracket. -/
def Ends (r : List Char) : Prop := token '+' r = none ∧ token '(' r = none

theorem ends_nil : Ends [] := ⟨rfl, rfl⟩

theorem ends_cons {d : Char} (hd : isWs d = false) (h1 : d ≠ '+') (h2 : d ≠ '(') (s : List Char) :
    Ends (d :: s) := by
  simp only [Ends, token_cons hd, if_neg h1, if_neg h2, and_self]

theorem ends_close (s : List Char) : Ends (')' :: s) := ends_cons (by decide) (by decide) (by decide) s

theorem ends_comma (s : List Char) : Ends (',' :: s) := ends_cons (by decide) (by decide) (by decide) s

/-! ## The parser, one step at a time -/

theorem parseUnion_ends {r : List Char} (hr : Ends r) (fuel : Nat) (x : Expr) :
    parseUnion (fuel + 1) x r = some (x, r) := by
  rw [parseUnion, hr.1]

theorem parsePrimary_space (fuel : Nat) (s : List Char) :
    parsePrimary fuel (' ' :: s) = parsePrimary fuel s := by
  cases fuel with
  | zero => rfl
  | succ fuel => rw [parsePrimary, parsePrimary, skipWs_space]

theorem parseExpr_space (fuel : Nat) (s : List Char) : parseExpr fuel (' ' :: s) = parseExpr fuel s := by
  cases fuel with
  | zero => rfl
  | succ fuel => rw [parseExpr, parseExpr, parsePrimary_space]

theorem parsePrimary_quoted {w : List Char} (hw : '"' ∉ w) {r : List Char} (hr : token '(' r = none)
    (fuel : Nat) : parsePrimary (fuel + 1) ('"' :: (w ++ '"' :: r)) = some (.word ⟨w⟩, r) := by
  rw [parsePrimary, skipWs_cons (by decide), parseWord_quoted hw, Option.some_bind]
  dsimp only
  rw [hr]

/-- A bare word followed by an opening bracket calls that function. -/
theorem parsePrimary_call {c : Char} {w : List Char} (hc : c ≠ '"') (hws : isWs c = false)
    (hw : ∀ a ∈ c :: w, isWordChar a = true) (fuel : Nat) (s : List Char) :
    parsePrimary (fuel + 1) (c :: w ++ '(' :: s) = parseCall fuel ⟨c :: w⟩ s := by
  rw [parsePrimary, List.cons_append, skipWs_cons hws, ← List.cons_append,
    parseWord_bare hc hw fun d hd => by cases Option.mem_some_iff.mp hd; rfl, Option.some_bind]
  dsimp only
  rw [token_cons (by decide), if_pos rfl]

/-! ## The union of the targets -/

/-- The text after the first target of a union: a further quoted target after each
` + `. -/
def unionTail (ts : List String) : List Char :=
  ts.flatMap fun t => ' ' :: '+' :: ' ' :: '"' :: (t.toList ++ ['"'])

theorem toList_intercalate_go (sep : String) : ∀ (acc : String) (as : List String),
    (String.intercalate.go acc sep as).toList = acc.toList ++ as.flatMap fun a => sep.toList ++ a.toList
  | acc, [] => by simp [String.intercalate.go]
  | acc, a :: as => by
    rw [String.intercalate.go, toList_intercalate_go, List.flatMap_cons]
    simp only [String.toList, String.data_append, List.append_assoc]

theorem toList_unionOf (t : String) (ts : List String) :
    (unionOf (t :: ts)).toList = '"' :: (t.toList ++ '"' :: unionTail ts) := by
  rw [unionOf, List.map_cons, String.intercalate, toList_intercalate_go, List.flatMap_map]
  simp [unionTail]

theorem length_unionTail (ts : List String) : ts.length ≤ (unionTail ts).length := by
  induction ts with
  | nil => exact Nat.zero_le _
  | cons t ts ih => simp [unionTail] at ih ⊢; omega

theorem parseUnion_unionTail {r : List Char} (hr : Ends r) :
    ∀ (ts : List String) (x : Expr) (fuel : Nat), (∀ t ∈ ts, '"' ∉ t.toList) → ts.length < fuel →
      parseUnion fuel x (unionTail ts ++ r) = some (ts.foldl (fun x t => .union x (.word t)) x, r)
  | [], x, fuel + 1, _, _ => parseUnion_ends hr fuel x
  | t :: ts, x, fuel + 1, hq, hlen => by
    obtain ⟨f, rfl⟩ : ∃ f, fuel = f + 1 := ⟨fuel - 1, by simp at hlen; omega⟩
    have hopen : token '(' (unionTail ts ++ r) = none := by
      cases ts with
      | nil => exact hr.2
      | cons _ _ => rfl
    have htail : unionTail (t :: ts) ++ r = ' ' :: '+' :: ' ' :: '"' :: (t.toList ++ '"' :: (unionTail ts ++ r)) := by
      simp [unionTail]
    rw [htail, parseUnion, token_space, token_cons (by decide), if_pos rfl]
    dsimp only
    rw [parsePrimary_space, parsePrimary_quoted (hq t (List.mem_cons_self _ _)) hopen, Option.some_bind]
    exact parseUnion_unionTail hr ts _ (f + 1) (fun t' ht' => hq t' (List.mem_cons_of_mem _ ht'))
      (by simp at hlen; omega)

theorem token_open_unionTail {r : List Char} (hr : Ends r) (ts : List String) :
    token '(' (unionTail ts ++ r) = none := by
  cases ts with
  | nil => exact hr.2
  | cons _ _ => rfl

theorem quote_not_mem_intercalate {sep : String} (hsep : '"' ∉ sep.toList) :
    ∀ {as : List String}, (∀ a ∈ as, '"' ∉ a.toList) → '"' ∉ (sep.intercalate as).toList
  | [], _ => by simp [String.intercalate]
  | a :: as, h => by
    rw [String.intercalate, toList_intercalate_go]
    simp only [List.mem_append, List.mem_flatMap, not_or, not_exists, not_and]
    exact ⟨h a (List.mem_cons_self _ _), fun b hb => ⟨hsep, h b (List.mem_cons_of_mem _ hb)⟩⟩

/-! ## Texts that read as an expression -/

/-- The text `s` reads as `x`, whatever can follow an expression comes after it,
once the parser has a unit of fuel for each character. -/
def Reads (s : List Char) (x : Expr) : Prop :=
  ∀ fuel r, s.length ≤ fuel → Ends r → parseExpr fuel (s ++ r) = some (x, r)

theorem reads_unionOf {t : String} {ts : List String} (hq : ∀ w ∈ t :: ts, '"' ∉ w.toList) :
    Reads (unionOf (t :: ts)).toList (unionExpr t ts) := by
  intro fuel r hlen hr
  have hts := length_unionTail ts
  rw [toList_unionOf] at hlen ⊢
  simp only [List.length_cons, List.length_append] at hlen
  obtain ⟨f, rfl⟩ : ∃ f, fuel = f + 2 := ⟨fuel - 2, by omega⟩
  rw [List.cons_append, List.append_assoc, List.cons_append, parseExpr,
    parsePrimary_quoted (hq t (List.mem_cons_self _ _)) (token_open_unionTail hr ts), Option.some_bind]
  exact parseUnion_unionTail hr ts _ (f + 1) (fun w hw => hq w (List.mem_cons_of_mem _ hw)) (by omega)

theorem reads_quoted {u : String} (hu : '"' ∉ u.toList) : Reads ('"' :: (u.toList ++ ['"'])) (.word u) := by
  have h := @reads_unionOf u [] (by simpa using hu)
  rwa [toList_unionOf] at h

/-- A text that reads as `x` is a whole query for `x`. -/
theorem parseQuery_of_reads {s : String} {x : Expr} (h : Reads s.toList x) : parseQuery s = some x := by
  have hs := h (s.toList.length + 1) [] (Nat.le_succ _) ends_nil
  rw [List.append_nil] at hs
  rw [parseQuery, hs]
  rfl

/-- How a call of `deps` or `rdeps` ends: a closing bracket, after the depth when one
is given. -/
def depthText : Option Int → List Char
  | none => [')']
  | some d => ',' :: ' ' :: ((toString d).toList ++ [')'])

theorem ends_depthText (d : Option Int) (r : List Char) : Ends (depthText d ++ r) := by
  cases d with
  | none => exact ends_close r
  | some d => exact ends_comma _

theorem parseDepth_depthText (d : Option Int) (r : List Char) :
    parseDepth (depthText d ++ r) = some (d, r) := by
  cases d with
  | none => rw [depthText, List.singleton_append, parseDepth, token_cons (by decide), if_pos rfl]
  | some d =>
    obtain ⟨c, w, hcw, hc, hws, hw⟩ := toString_int d
    have hint : intOfWord (c :: w) = some d := hcw ▸ intOfWord_toString d
    simp only [depthText, List.cons_append, List.nil_append, List.append_assoc]
    rw [parseDepth, token_cons (by decide), if_neg (by decide)]
    dsimp only
    rw [token_cons (by decide), if_pos rfl, Option.some_bind, skipWs_space, hcw, List.cons_append,
      skipWs_cons hws, ← List.cons_append,
      parseWord_bare hc hw fun d hd => by cases Option.mem_some_iff.mp hd; rfl, Option.some_bind]
    rw [show (⟨c :: w⟩ : String).toList = c :: w from rfl, hint, Option.some_bind,
      token_cons (by decide), if_pos rfl]
    rfl

/-- A call of the function `f`, named by a bare word. -/
theorem parseExpr_call {f : String} {c : Char} {w : List Char} (hf : f.toList = c :: w)
    (hc : c ≠ '"') (hws : isWs c = false) (hw : ∀ a ∈ c :: w, isWordChar a = true) (fuel : Nat)
    (s : List Char) :
    parseExpr (fuel + 2) (f.toList ++ '(' :: s) =
      (parseCall fuel f s).bind fun p => parseUnion (fuel + 1) p.1 p.2 := by
  obtain ⟨l⟩ := f
  change l = c :: w at hf
  subst hf
  exact congrArg (Option.bind · _) (parsePrimary_call hc hws hw fuel s)

/-- A union under `deps`, as the code writes it. -/
theorem reads_deps {q : String} {x : Expr} (h : Reads q.toList x) (depth : Option Int) :
    Reads (match depth with
      | none => "deps" ++ "(" ++ q ++ ")"
      | some depth => "deps" ++ "(" ++ q ++ ", " ++ toString depth ++ ")").toList (.deps x depth) := by
  have htext : (match depth with
      | none => "deps" ++ "(" ++ q ++ ")"
      | some depth => "deps" ++ "(" ++ q ++ ", " ++ toString depth ++ ")").toList =
      "deps".toList ++ '(' :: (q.toList ++ depthText depth) := by
    cases depth <;> simp only [String.toList, String.data_append, List.append_assoc, depthText] <;> rfl
  rw [htext]
  intro fuel r hlen hr
  simp only [List.length_append, List.length_cons, show "deps".toList.length = 4 from rfl] at hlen
  obtain ⟨f, rfl⟩ : ∃ f, fuel = f + 3 := ⟨fuel - 3, by omega⟩
  rw [List.append_assoc, List.cons_append, List.append_assoc,
    parseExpr_call rfl (by decide) (by decide) (by decide), parseCall, if_pos rfl,
    h f _ (by omega) (ends_depthText depth r), Option.some_bind]
  dsimp only
  rw [parseDepth_depthText, Option.map_some', Option.some_bind]
  exact parseUnion_ends hr _ _

/-- A union under `rdeps` in the universe `u`, as the code writes it. -/
theorem reads_rdeps {u q : String} (hu : '"' ∉ u.toList) {x : Expr} (h : Reads q.toList x)
    (depth : Option Int) :
    Reads (match depth with
      | none => "rdeps" ++ "(" ++ ("\"" ++ u ++ "\", " ++ q) ++ ")"
      | some depth => "rdeps" ++ "(" ++ ("\"" ++ u ++ "\", " ++ q) ++ ", " ++ toString depth ++ ")").toList
      (.rdeps (.word u) x depth) := by
  have htext : (match depth with
      | none => "rdeps" ++ "(" ++ ("\"" ++ u ++ "\", " ++ q) ++ ")"
      | some depth => "rdeps" ++ "(" ++ ("\"" ++ u ++ "\", " ++ q) ++ ", " ++ toString depth ++ ")").toList =
      "rdeps".toList ++ '(' :: ('"' :: (u.toList ++ '"' :: ',' :: ' ' :: (q.toList ++ depthText depth))) := by
    cases depth <;> simp only [String.toList, String.data_append, List.append_assoc, depthText] <;> rfl
  rw [htext]
  intro fuel r hlen hr
  simp only [List.length_append, List.length_cons, show "rdeps".toList.length = 5 from rfl] at hlen
  obtain ⟨f, rfl⟩ : ∃ f, fuel = f + 3 := ⟨fuel - 3, by omega⟩
  have hword := reads_quoted hu f (',' :: ' ' :: (q.toList ++ depthText depth ++ r)) (by simp only [List.length_cons, List.length_append, List.length_nil]; omega) (ends_comma _)
  simp only [List.cons_append, List.nil_append, List.append_assoc] at hword
  rw [List.append_assoc, List.cons_append, parseExpr_call rfl (by decide) (by decide) (by decide),
    parseCall, if_neg (by decide), if_pos rfl]
  simp only [List.cons_append, List.append_assoc]
  rw [hword, Option.some_bind]
  dsimp only
  rw [token_cons (by decide), if_pos rfl, Option.some_bind, parseExpr_space,
    h f _ (by omega) (ends_depthText depth r), Option.some_bind]
  dsimp only
  rw [parseDepth_depthText, Option.map_some', Option.some_bind]
  exact parseUnion_ends hr _ _

theorem parseWord_tags (r : List Char) :
    parseWord (skipWs ("tags".toList ++ ',' :: r)) = some ("tags", ',' :: r) := rfl

/-- The tags filter, as the code writes it. -/
theorem reads_attr {pattern q : String} (hp : '"' ∉ pattern.toList) {x : Expr} (h : Reads q.toList x) :
    Reads ("attr(tags, \"" ++ pattern ++ "\", " ++ q ++ ")").toList (.attr "tags" pattern x) := by
  have htext : ("attr(tags, \"" ++ pattern ++ "\", " ++ q ++ ")").toList = "attr".toList ++
      '(' :: ("tags".toList ++ ',' :: ' ' :: '"' :: (pattern.toList ++ '"' :: ',' :: ' ' :: (q.toList ++ [')']))) := by
    simp only [String.toList, String.data_append, List.append_assoc]
    rfl
  rw [htext]
  intro fuel r hlen hr
  simp only [List.length_append, List.length_cons, show "attr".toList.length = 4 from rfl] at hlen
  obtain ⟨k, rfl⟩ : ∃ k, fuel = k + 3 := ⟨fuel - 3, by omega⟩
  simp only [List.append_assoc, List.cons_append, List.nil_append]
  rw [parseExpr_call rfl (by decide) (by decide) (by decide), parseCall, if_neg (by decide),
    if_neg (by decide), if_pos rfl, parseWord_tags, Option.some_bind]
  dsimp only
  rw [token_cons (by decide), if_pos rfl, Option.some_bind, skipWs_space, skipWs_cons (by decide),
    parseWord_quoted hp, Option.some_bind]
  dsimp only
  rw [token_cons (by decide), if_pos rfl, Option.some_bind, parseExpr_space,
    h k _ (by omega) (ends_close r), Option.some_bind]
  dsimp only
  rw [token_cons (by decide), if_pos rfl, Option.map_some', Option.some_bind]
  exact parseUnion_ends hr _ _

/-- A call of a function whose first argument is a pattern word. -/
theorem reads_pattern {f : String} {g : String → Expr → Expr} (hg : patternFun f = some g)
    {c : Char} {w : List Char} (hf : f.toList = c :: w) (hc : c ≠ '"') (hws : isWs c = false)
    (hw : ∀ a ∈ c :: w, isWordChar a = true) (hcall : f ≠ "deps" ∧ f ≠ "rdeps" ∧ f ≠ "attr")
    {pattern : String} (hp : '"' ∉ pattern.toList) {q : List Char} {x : Expr} (h : Reads q x) :
    Reads (f.toList ++ '(' :: '"' :: (pattern.toList ++ '"' :: ',' :: ' ' :: (q ++ [')'])))
      (g pattern x) := by
  intro fuel r hlen hr
  simp only [List.length_append, List.length_cons, hf] at hlen
  obtain ⟨k, rfl⟩ : ∃ k, fuel = k + 3 := ⟨fuel - 3, by omega⟩
  simp only [List.append_assoc, List.cons_append, List.nil_append]
  rw [parseExpr_call hf hc hws hw, parseCall, if_neg hcall.1, if_neg hcall.2.1, if_neg hcall.2.2, hg,
    Option.some_bind, skipWs_cons (by decide), parseWord_quoted hp, Option.some_bind]
  dsimp only
  rw [token_cons (by decide), if_pos rfl, Option.some_bind, parseExpr_space,
    h k _ (by omega) (ends_close r), Option.some_bind]
  dsimp only
  rw [token_cons (by decide), if_pos rfl, Option.map_some', Option.some_bind]
  exact parseUnion_ends hr _ _

/-- The kinds filter, as the code writes it. -/
theorem reads_kind {pattern q : String} (hp : '"' ∉ pattern.toList) {x : Expr} (h : Reads q.toList x) :
    Reads ("kind(\"" ++ pattern ++ "\", " ++ q ++ ")").toList (.kind pattern x) := by
  have htext : ("kind(\"" ++ pattern ++ "\", " ++ q ++ ")").toList =
      "kind".toList ++ '(' :: '"' :: (pattern.toList ++ '"' :: ',' :: ' ' :: (q.toList ++ [')'])) := by
    simp only [String.toList, String.data_append, List.append_assoc]
    rfl
  rw [htext]
  exact reads_pattern (by rw [patternFun, if_pos rfl]) rfl (by decide) (by decide) (by decide)
    (by decide) hp h

/-- The filter pattern, as the code writes it. -/
theorem reads_filter {queryFilter q : String} (hp : '"' ∉ queryFilter.toList) {x : Expr}
    (h : Reads q.toList x) :
    Reads ("filter(\".*" ++ queryFilter ++ ".*\", " ++ q ++ ")").toList
      (.filter (".*" ++ queryFilter ++ ".*") x) := by
  have htext : ("filter(\".*" ++ queryFilter ++ ".*\", " ++ q ++ ")").toList = "filter".toList ++
      '(' :: '"' :: ((".*" ++ queryFilter ++ ".*").toList ++ '"' :: ',' :: ' ' :: (q.toList ++ [')'])) := by
    simp only [String.toList, String.data_append, List.append_assoc]
    rfl
  have hp' : '"' ∉ (".*" ++ queryFilter ++ ".*").toList := by
    simp only [String.toList, String.data_append, List.mem_append, not_or]
    exact ⟨⟨by decide, hp⟩, by decide⟩
  rw [htext]
  exact reads_pattern (by rw [patternFun, if_neg (by decide), if_pos rfl]) rfl (by decide) (by decide)
    (by decide) (by decide) hp' h

/-- The mnemonic query, as the code writes it. -/
theorem reads_mnemonic {pattern q : String} (hp : '"' ∉ pattern.toList) {x : Expr}
    (h : Reads q.toList x) :
    Reads ("mnemonic(\"" ++ pattern ++ "\", " ++ q ++ ")").toList (.mnemonic pattern x) := by
  have htext : ("mnemonic(\"" ++ pattern ++ "\", " ++ q ++ ")").toList =
      "mnemonic".toList ++ '(' :: '"' :: (pattern.toList ++ '"' :: ',' :: ' ' :: (q.toList ++ [')'])) := by
    simp only [String.toList, String.data_append, List.append_assoc]
    rfl
  rw [htext]
  exact reads_pattern (by rw [patternFun, if_neg (by decide), if_neg (by decide), if_pos rfl]) rfl
    (by decide) (by decide) (by decide) (by decide) hp h

/-- A line of the code that wraps the text only under a condition keeps its reading. -/
theorem reads_ite {c : Prop} [Decidable c] {q q' : String} {x x' : Expr} (h : Reads q.toList x)
    (h' : ¬ c → Reads q'.toList x') : Reads (if c then q else q').toList (if c then x else x') := by
  split_ifs with hc
  · exact h
  · exact h' hc

/-- The scope line of the code: the union under `rdeps` or `deps`, when asked for. -/
theorem reads_scope {q : String} {x : Expr} (h : Reads q.toList x) {queryDeps queryRdeps : Bool}
    (hdr : ¬ (queryDeps = true ∧ queryRdeps = true)) (queryDepth : Option Int) {queryRdepsUniverse : String}
    (hu : '"' ∉ (if queryRdepsUniverse = "" then "//..." else queryRdepsUniverse).toList) :
    Reads (if queryDeps || queryRdeps then
        let (queryFun, queryString) :=
          if queryRdeps then
            let univ := if queryRdepsUniverse = "" then "//..." else queryRdepsUniverse
            ("rdeps", "\"" ++ univ ++ "\", " ++ q)
          else ("deps", q)
        match queryDepth with
        | none => queryFun ++ "(" ++ queryString ++ ")"
        | some queryDepth => queryFun ++ "(" ++ queryString ++ ", " ++ toString queryDepth ++ ")"
      else q).toList
      (if queryRdeps then
        .rdeps (.word (if queryRdepsUniverse = "" then "//..." else queryRdepsUniverse)) x queryDepth
      else if queryDeps then .deps x queryDepth
      else x) := by
  cases queryDeps <;> cases queryRdeps
  · exact h
  · exact reads_rdeps hu h queryDepth
  · exact reads_deps h queryDepth
  · exact absurd ⟨rfl, rfl⟩ hdr

/-! ## The round trips -/

/-- **The query text of execute_query.** For targets `t :: ts`, `_query_string`
raises only when asked for `deps` and `rdeps` at once; otherwise it returns a text
that Bazel's grammar reads as exactly the query its docstring describes, provided
the targets, kinds, tags, universe and filter hold no double quote. -/
theorem parseQuery_queryString (t : String) (ts queryKinds : List String) (queryDeps queryRdeps : Bool)
    (queryDepth : Option Int) (queryTags : List String) (queryRdepsUniverse queryFilter : String)
    (hdr : ¬ (queryDeps = true ∧ queryRdeps = true))
    (hq : ∀ w ∈ t :: ts ++ queryKinds ++ queryTags ++ [queryRdepsUniverse, queryFilter], '"' ∉ w.toList) :
    ∃ s, queryString (t :: ts) queryKinds queryDeps queryRdeps queryDepth queryTags queryRdepsUniverse
        queryFilter = .ok s ∧
      parseQuery s = some (queryExpr t ts queryKinds queryDeps queryRdeps queryDepth queryTags
        queryRdepsUniverse queryFilter) := by
  have hx := reads_unionOf fun w hw => hq w
    (List.mem_append_left _ (List.mem_append_left _ (List.mem_append_left _ hw)))
  have hk : '"' ∉ ("|".intercalate queryKinds).toList := quote_not_mem_intercalate (by decide)
    fun k hk => hq k (List.mem_append_left _ (List.mem_append_left _ (List.mem_append_right _ hk)))
  have ht : '"' ∉ ("|".intercalate (queryTags.map fun tag => "\\b" ++ tag ++ "\\b")).toList := by
    refine quote_not_mem_intercalate (by decide) fun a ha => ?_
    obtain ⟨tag, htag, rfl⟩ := List.mem_map.mp ha
    simp only [String.toList, String.data_append, List.mem_append, not_or]
    exact ⟨⟨by decide, hq tag (List.mem_append_left _ (List.mem_append_right _ htag))⟩, by decide⟩
  have hu : '"' ∉ (if queryRdepsUniverse = "" then "//..." else queryRdepsUniverse).toList := by
    split_ifs
    · decide
    · exact hq _ (List.mem_append_right _ (List.mem_cons_self _ _))
  have hf := hq queryFilter (List.mem_append_right _ (List.mem_cons_of_mem _ (List.mem_singleton_self _)))
  rw [queryString, if_neg (List.cons_ne_nil _ _), if_neg (by simpa using hdr)]
  have h0 := reads_scope hx hdr queryDepth hu
  have h1 := reads_ite (c := queryTags = []) h0 fun _ => reads_attr ht h0
  have h2 := reads_ite (c := queryKinds = []) h1 fun _ => reads_kind hk h1
  exact ⟨_, rfl, parseQuery_of_reads (reads_ite (c := queryFilter = "") h2 fun _ => reads_filter hf h2)⟩

theorem parseQuery_queryString_dependencyGraph :
    ∃ s, dependencyGraphQuery ["//app:lib"] 1 = .ok s ∧
      parseQuery s = some (.kind "java_library|java_import|java_test|jvm_import"
        (.deps (.word "//app:lib") (some 1))) :=
  parseQuery_queryString "//app:lib" [] supportedRules true false (some 1) [] "//..." "" (by decide)
    (by decide)

theorem parseExpr_close (fuel : Nat) (r : List Char) : parseExpr fuel (')' :: r) = none := by
  match fuel with
  | 0 => rfl
  | 1 => rfl
  | fuel + 2 =>
    rw [parseExpr, parsePrimary, skipWs_cons (by decide), parseWord, if_neg (by decide), if_neg (by decide)]
    rfl

/-- **The query text of get_mnemonic_output.** It reads as the mnemonic function over
the union of the targets, in order; with no target it is not a query at all. -/
theorem parseQuery_mnemonicQuery (mnemonic : String) (hm : '"' ∉ mnemonic.toList) (targets : List String)
    (hq : ∀ t ∈ targets, '"' ∉ t.toList) :
    parseQuery (mnemonicQuery mnemonic targets) = match targets with
      | [] => none
      | t :: ts => some (.mnemonic mnemonic (unionExpr t ts)) := by
  cases targets with
  | cons t ts => exact parseQuery_of_reads (reads_mnemonic hm (reads_unionOf hq))
  | nil =>
    have htext : (mnemonicQuery mnemonic []).toList =
        "mnemonic".toList ++ '(' :: '"' :: (mnemonic.toList ++ ['"', ',', ' ', ')']) := by
      simp only [mnemonicQuery, String.toList, String.data_append, List.append_assoc]
      rfl
    obtain ⟨k, hk⟩ : ∃ k, (mnemonicQuery mnemonic []).toList.length + 1 = k + 1 + 2 :=
      ⟨mnemonic.toList.length + 12, by
        rw [htext]
        simp only [List.length_append, List.length_cons, List.length_nil,
          show "mnemonic".toList.length = 8 from rfl]
        omega⟩
    rw [parseQuery, hk, htext, parseExpr_call rfl (by decide) (by decide) (by decide), parseCall,
      if_neg (by decide), if_neg (by decide), if_neg (by decide),
      show patternFun "mnemonic" = some .mnemonic by rw [patternFun, if_neg (by decide), if_neg (by decide), if_pos rfl],
      Option.some_bind, skipWs_cons (by decide), parseWord_quoted hm, Option.some_bind]
    dsimp only
    rw [token_cons (by decide), if_pos rfl, Option.some_bind, parseExpr_space, parseExpr_close]
    rfl

theorem parseQuery_mnemonicQuery_sync :
    parseQuery (mnemonicQuery syncMnemonic ["//app:lib"]) = some (.mnemonic syncMnemonic (.word "//app:lib")) :=
  parseQuery_mnemonicQuery syncMnemonic (by decide) ["//app:lib"] (by decide)

/-! ## Running the query -/

/-- One item `utils.stream_output` yields: `(return_code, error_string, line)`. -/
structure StreamItem where
  returnCode : Int
  errorString : Option String
  line : Option String

/-- `stream_output`: each line of the process's standard output, stripped, with code 0
and no error; then, when the process exits with a non-zero code, that code with the
whole standard error and no line. -/
def streamOutput (stdout : List String) (returncode : Int) (stderr : String) : List StreamItem :=
  stdout.map (fun line => ⟨0, none, some (pyStrip line)⟩) ++
    if returncode ≠ 0 then [⟨returncode, some stderr, none⟩] else []

/-- The state of `execute_query`'s loop: `outputs`, `query_return_code` and
`query_error_string`. -/
structure QueryState where
  outputs : List Value
  queryReturnCode : Int
  queryErrorString : Option String

/-- One iteration of `execute_query`'s loop. `json.loads` raises on a line that is not
one JSON value, and on the missing line of the exit item; `finally: continue`
discards the exception, so such an item only sets the code and the error. -/
def queryStep (st : QueryState) (item : StreamItem) : QueryState :=
  ⟨match item.line.bind loads with
    | some j => st.outputs ++ [j]
    | none => st.outputs, item.returnCode, item.errorString⟩

/-- An optional string as an f-string prints it. -/
def pyStrOption : Option String → String
  | some s => s
  | none => "None"

/-- `execute_query` once the process streams: the decoded lines, or the message of the
`RuntimeError` it raises when the query is not a soft fail and the last item carries a
non-zero code. -/
def executeQuery (softFail : Bool) (stream : List StreamItem) : Except String (List Value) :=
  let st := stream.foldl queryStep ⟨[], 0, none⟩
  if !softFail && st.queryReturnCode != 0 then
    .error ("Bazel query failed with return code: " ++ toString st.queryReturnCode ++
      " and error: " ++ pyStrOption st.queryErrorString)
  else .ok st.outputs

/-- The output lines keep the code at 0 and append what each decodes to. -/
theorem foldl_queryStep_lines (stdout : List String) (outputs : List Value) :
    (stdout.map fun line => (⟨0, none, some (pyStrip line)⟩ : StreamItem)).foldl queryStep
        ⟨outputs, 0, none⟩ =
      ⟨outputs ++ stdout.filterMap fun line => loads (pyStrip line), 0, none⟩ := by
  induction stdout generalizing outputs with
  | nil => rw [List.map_nil, List.foldl_nil, List.filterMap_nil, List.append_nil]
  | cons line stdout ih =>
    rw [List.map_cons, List.foldl_cons, List.filterMap_cons]
    cases h : loads (pyStrip line) <;>
      simp only [queryStep, Option.some_bind, h, ih, List.append_assoc, List.singleton_append]

end ScipSync.Bazel.Query
