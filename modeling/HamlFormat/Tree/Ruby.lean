import HamlFormat.Json.Basic

/-!
# HamlFormat.Tree.Ruby

Ruby expressions as a parser reports them: hashes and the values found in them.
A parser's data is checked for its shape only, so the texts it reports, and the
line numbers, may be values of any kind. An absent line number is `null`.
-/

namespace HamlFormat

/-- A scanner token, such as an `@int` with text `42`. -/
structure Token where
  kind : Json
  text : Text
  line : Json
  deriving DecidableEq

mutual

/-- A Ruby expression. -/
inductive Ruby where
  | token (token : Token)
  /-- A variable, a constant or a word such as `nil`. -/
  | varRef (token : Token) (line : Json)
  /-- A hash label; its text ends in a colon. -/
  | label (text line : Json)
  /-- A plain symbol, `:name`. -/
  | symbol (name : Token) (line : Json)
  /-- A quoted symbol, `:"name"`. -/
  | quotedSymbol (segments : List Ruby) (quote line : Json)
  /-- A quoted string. -/
  | string (segments : List Ruby) (quote line : Json)
  /-- An expression inside a quoted text. -/
  | interpolation (expression : Ruby) (line : Json)
  /-- An array; one written without elements may have no list of them. -/
  | array (elements : Option (List Ruby)) (line : Json)
  /-- Two operands and the operator between them. -/
  | binary (left : Ruby) (operator : Text) (right : Ruby) (line : Json)
  | pair (pair : Pair)
  | pairs (pairs : Pairs)
  /-- Pairs without braces. -/
  | bareHash (pairs : List Pair) (line : Json)
  /-- A hash; one written without pairs may have no list of them. -/
  | hash (body : Option Pairs) (line : Json)

/-- A key and its value. -/
inductive Pair where
  | mk (key value : Ruby) (line : Json)

/-- The pairs between the braces of a hash. -/
inductive Pairs where
  | mk (pairs : List Pair) (line : Json)

end

/-- The kinds of token that stand as an expression. -/
def Token.kinds : List String :=
  ["@int", "@float", "@rational", "@imaginary", "@CHAR", "@ident", "@const", "@kw", "@ivar",
   "@cvar", "@gvar", "@backref", "@op", "@tstring_content"]

/-- Whether a hash body holds no pairs. -/
def Pairs.isEmpty : Pairs → Bool
  | .mk pairs _ => pairs.isEmpty

namespace Ruby

/-- The name of an expression's kind, as messages give it. -/
def className : Ruby → String
  | .token _ => "Token"
  | .varRef _ _ => "VarRef"
  | .label _ _ => "Label"
  | .symbol _ _ => "SymbolLiteral"
  | .quotedSymbol _ _ _ => "DynaSymbol"
  | .string _ _ _ => "StringLiteral"
  | .interpolation _ _ => "StringEmbexpr"
  | .array _ _ => "ArrayLiteral"
  | .binary _ _ _ _ => "Binary"
  | .pair _ => "AssocNew"
  | .pairs _ => "AssoclistFromArgs"
  | .bareHash _ _ => "BareAssocHash"
  | .hash _ _ => "Hash"

/-! ## Equality -/

mutual

/-- Whether two expressions are the same, line numbers included. -/
def same : Ruby → Ruby → Bool
  | .token a, .token b => a == b
  | .varRef a l, .varRef b m => a == b && l == m
  | .label a l, .label b m => a == b && l == m
  | .symbol a l, .symbol b m => a == b && l == m
  | .quotedSymbol as q l, .quotedSymbol bs r m => sameList as bs && q == r && l == m
  | .string as q l, .string bs r m => sameList as bs && q == r && l == m
  | .interpolation a l, .interpolation b m => same a b && l == m
  | .array none l, .array none m => l == m
  | .array (some as) l, .array (some bs) m => sameList as bs && l == m
  | .binary a o b l, .binary c p d m => same a c && o == p && same b d && l == m
  | .pair p, .pair q => samePair p q
  | .pairs ps, .pairs qs => samePairs ps qs
  | .bareHash ps l, .bareHash qs m => samePairList ps qs && l == m
  | .hash none l, .hash none m => l == m
  | .hash (some ps) l, .hash (some qs) m => samePairs ps qs && l == m
  | _, _ => false

/-- Whether two lists hold the same expressions. -/
def sameList : List Ruby → List Ruby → Bool
  | [], [] => true
  | a :: as, b :: bs => same a b && sameList as bs
  | _, _ => false

/-- Whether two pairs are the same. -/
def samePair : Pair → Pair → Bool
  | .mk a b l, .mk c d m => same a c && same b d && l == m

/-- Whether two hash bodies are the same. -/
def samePairs : Pairs → Pairs → Bool
  | .mk ps l, .mk qs m => samePairList ps qs && l == m

/-- Whether two lists hold the same pairs. -/
def samePairList : List Pair → List Pair → Bool
  | [], [] => true
  | p :: ps, q :: qs => samePair p q && samePairList ps qs
  | _, _ => false

end

mutual

/-- `same` decides equality of expressions. -/
theorem same_iff : ∀ a b : Ruby, same a b = true ↔ a = b
  | .token _, b | .varRef _ _, b | .label _ _, b | .symbol _ _, b => by cases b <;> simp [same]
  | .quotedSymbol as _ _, b => by cases b <;> simp [same, sameList_iff as, and_assoc]
  | .string as _ _, b => by cases b <;> simp [same, sameList_iff as, and_assoc]
  | .interpolation a _, b => by cases b <;> simp [same, same_iff a]
  | .array none _, b => by
    cases b with
    | array bs _ => cases bs <;> simp [same]
    | _ => simp [same]
  | .array (some as) _, b => by
    cases b with
    | array bs _ => cases bs <;> simp [same, sameList_iff as]
    | _ => simp [same]
  | .binary x _ y _, b => by cases b <;> simp [same, same_iff x, same_iff y, and_assoc]
  | .pair p, b => by cases b <;> simp [same, samePair_iff p]
  | .pairs ps, b => by cases b <;> simp [same, samePairs_iff ps]
  | .bareHash ps _, b => by cases b <;> simp [same, samePairList_iff ps]
  | .hash none _, b => by
    cases b with
    | hash qs _ => cases qs <;> simp [same]
    | _ => simp [same]
  | .hash (some ps) _, b => by
    cases b with
    | hash qs _ => cases qs <;> simp [same, samePairs_iff ps]
    | _ => simp [same]

/-- `sameList` decides equality of lists of expressions. -/
theorem sameList_iff : ∀ as bs : List Ruby, sameList as bs = true ↔ as = bs
  | [], bs => by cases bs <;> simp [sameList]
  | a :: as, bs => by cases bs <;> simp [sameList, same_iff a, sameList_iff as]

/-- `samePair` decides equality of pairs. -/
theorem samePair_iff : ∀ p q : Pair, samePair p q = true ↔ p = q
  | .mk a b l, .mk c d m => by simp [samePair, same_iff a, same_iff b, and_assoc]

/-- `samePairs` decides equality of hash bodies. -/
theorem samePairs_iff : ∀ ps qs : Pairs, samePairs ps qs = true ↔ ps = qs
  | .mk ps l, .mk qs m => by simp [samePairs, samePairList_iff ps]

/-- `samePairList` decides equality of lists of pairs. -/
theorem samePairList_iff : ∀ ps qs : List Pair, samePairList ps qs = true ↔ ps = qs
  | [], qs => by cases qs <;> simp [samePairList]
  | p :: ps, qs => by cases qs <;> simp [samePairList, samePair_iff p, samePairList_iff ps]

end

instance : DecidableEq Ruby := fun a b => decidable_of_iff _ (same_iff a b)

end Ruby

end HamlFormat
