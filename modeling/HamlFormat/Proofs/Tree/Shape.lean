import HamlFormat.Tree.Markup
import HamlFormat.Tree.Ruby

/-!
# HamlFormat.Proofs.Tree.Shape

What trees are made of: `Markup.all` says that a line and every line nested under
it have some property of their own, and `Ruby.all` that an expression and every
expression inside it do.
-/

namespace HamlFormat

namespace Markup

mutual

/-- Whether `p` holds of a line and of every line nested under it. -/
def all (p : Markup → Bool) : Markup → Bool
  | .root children line => p (.root children line) && listAll p children
  | .tag t children line => p (.tag t children line) && listAll p children
  | .comment c children line => p (.comment c children line) && listAll p children
  | .doctype d line => p (.doctype d line)
  | .hamlComment text children line => p (.hamlComment text children line) && listAll p children
  | .plain text line => p (.plain text line)
  | .script text children line => p (.script text children line) && listAll p children
  | .silentScript s children line => p (.silentScript s children line) && listAll p children

/-- Whether `p` holds of every line in a list and nested under one. -/
def listAll (p : Markup → Bool) : List Markup → Bool
  | [] => true
  | m :: ms => all p m && listAll p ms

end

theorem listAll_eq_true {p : Markup → Bool} {ms : List Markup} :
    listAll p ms = true ↔ ∀ m ∈ ms, m.all p = true := by
  induction ms with
  | nil => simp [listAll]
  | cons m ms ih => simp [listAll, ih]

mutual

/-- A weaker property holds of a line and every line nested under it as well. -/
theorem all_mono {p q : Markup → Bool} (hpq : ∀ m, p m = true → q m = true) :
    ∀ m : Markup, m.all p = true → m.all q = true
  | .doctype _ _, h | .plain _ _, h => hpq _ h
  | .root children _, h | .tag _ children _, h | .comment _ children _, h
  | .hamlComment _ children _, h | .script _ children _, h | .silentScript _ children _, h => by
      simp only [all, Bool.and_eq_true] at h ⊢
      exact ⟨hpq _ h.1, listAll_mono hpq children h.2⟩

theorem listAll_mono {p q : Markup → Bool} (hpq : ∀ m, p m = true → q m = true) :
    ∀ ms : List Markup, listAll p ms = true → listAll q ms = true
  | [], _ => rfl
  | m :: ms, h => by
      simp only [listAll, Bool.and_eq_true] at h ⊢
      exact ⟨all_mono hpq m h.1, listAll_mono hpq ms h.2⟩

end

end Markup

namespace Ruby

mutual

/-- Whether `p` holds of an expression and of every expression inside it. -/
def all (p : Ruby → Bool) : Ruby → Bool
  | .token t => p (.token t)
  | .varRef t line => p (.varRef t line)
  | .label text line => p (.label text line)
  | .symbol name line => p (.symbol name line)
  | .quotedSymbol segments quote line =>
    p (.quotedSymbol segments quote line) && listAll p segments
  | .string segments quote line => p (.string segments quote line) && listAll p segments
  | .interpolation expression line => p (.interpolation expression line) && all p expression
  | .array none line => p (.array none line)
  | .array (some elements) line => p (.array (some elements) line) && listAll p elements
  | .binary left operator right line =>
    p (.binary left operator right line) && (all p left && all p right)
  | .pair entry => p (.pair entry) && pairAll p entry
  | .pairs ps => p (.pairs ps) && pairsAll p ps
  | .bareHash ps line => p (.bareHash ps line) && pairListAll p ps
  | .hash none line => p (.hash none line)
  | .hash (some ps) line => p (.hash (some ps) line) && pairsAll p ps

/-- Whether `p` holds of every expression in a list and inside one. -/
def listAll (p : Ruby → Bool) : List Ruby → Bool
  | [] => true
  | r :: rs => all p r && listAll p rs

/-- Whether `p` holds of both sides of a pair and of every expression inside them. -/
def pairAll (p : Ruby → Bool) : Pair → Bool
  | .mk key value _ => all p key && all p value

/-- Whether `p` holds of every expression inside the pairs of a hash. -/
def pairsAll (p : Ruby → Bool) : Pairs → Bool
  | .mk ps _ => pairListAll p ps

/-- Whether `p` holds of every expression inside pairs. -/
def pairListAll (p : Ruby → Bool) : List Pair → Bool
  | [] => true
  | entry :: ps => pairAll p entry && pairListAll p ps

end

end Ruby

end HamlFormat
