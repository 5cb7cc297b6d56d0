import Mathlib.Data.List.Infix
import Netfilum.Lib.Shell

namespace Shell

/-!
# Parameters in words

What a POSIX shell makes of the variables in a word.  A parameter between double quotes is
replaced by its value, as it is; parameters without quotes, whose values are split and matched
against file names, and those that are no variables are not read here.  Quotations that touch
are read as one.

* `Word.expand` — the text of a word.
* `expand_of_literal` — a word in which nothing is expanded is read as before.
* `replaceAll` — every occurrence of a text replaced, from left to right.
* `replaceAll_of_absent` — nothing happens where there is none.
* `absent_append` — where one text after another has no occurrence.
-/

/-- The name of the variable that a dollar stands before, with what is quoted as it is. -/
def nameOf (w : Word) : List Char :=
  (w.takeWhile fun g => g.quoting = .double ∧ isNameChar g.char).map (·.char)

/-- A name: it does not begin with a digit. -/
def isName (name : List Char) : Bool := name.head?.any fun c => !c.isDigit

/-- The text of a word, behind the characters of a name that has been replaced. -/
def expandFrom (value : String → Option String) : Nat → Word → Option (List Char)
  | _, []               => some []
  | skip + 1, _ :: rest => expandFrom value skip rest
  | 0, g :: rest        =>
    if g = ⟨'$', .double⟩ then
      let name := nameOf rest
      if isName name then
        (expandFrom value name.length rest).map
          (((value (String.ofList name)).getD "").toList ++ ·)
      else none
    else if g.isActive then none
    else (expandFrom value 0 rest).map (g.char :: ·)

/-- The text of a word, with the values of the variables in it. -/
def Word.expand (value : String → Option String) (w : Word) : Option String :=
  if w.hasTilde then none else (expandFrom value 0 w).map String.ofList

variable {value : String → Option String} {w : Word}

/-! ### Words without variables -/

/-- A word without active dollars expands to its own characters. -/
theorem expandFrom_of_inactive (h : ∀ g ∈ w, g.isActive = false) :
    expandFrom value 0 w = some (w.map (·.char)) := by
  induction w with
  | nil => rfl
  | cons g w ih =>
    have hg := h g List.mem_cons_self
    have hdollar : g ≠ ⟨'$', .double⟩ := by
      rintro rfl
      cases hg
    unfold expandFrom
    rw [if_neg hdollar, hg, if_neg Bool.false_ne_true,
      ih fun g' hmem => h g' (List.mem_cons_of_mem _ hmem)]
    rfl

/-- A word in which nothing is expanded. -/
theorem expand_of_literal {text : String} (h : w.literal = some text) :
    w.expand value = some text := by
  obtain ⟨hno, htext⟩ := Option.ite_none_left_eq_some.mp h
  obtain ⟨hactive, htilde⟩ := not_or.mp hno
  have hinactive : ∀ g ∈ w, g.isActive = false := fun g hmem =>
    Bool.eq_false_iff.mpr fun hg => hactive (List.any_eq_true.mpr ⟨g, hmem, hg⟩)
  unfold Word.expand
  rw [if_neg htilde, expandFrom_of_inactive hinactive, ← htext]
  rfl

/-! ### Replacing -/

section

variable {α : Type*} [DecidableEq α]

/-- `str::replace`: what is found is replaced, and the search goes on behind it; `skip` are the
    characters of it that are still to come. -/
def replaceAll (pattern new : List α) : Nat → List α → List α
  | _, []               => []
  | skip + 1, _ :: rest => replaceAll pattern new skip rest
  | 0, c :: rest        =>
    if pattern <+: c :: rest then new ++ replaceAll pattern new (pattern.length - 1) rest
    else c :: replaceAll pattern new 0 rest

variable {pattern text more : List α}

/-- Where the pattern does not occur, nothing is replaced. -/
theorem replaceAll_of_absent (h : ¬ pattern <:+: text) (new : List α) :
    replaceAll pattern new 0 text = text := by
  induction text with
  | nil => rfl
  | cons c text ih =>
    obtain ⟨hfront, hrest⟩ := not_or.mp (mt List.infix_cons_iff.mpr h)
    unfold replaceAll
    rw [if_neg hfront, ih hrest]

omit [DecidableEq α] in
/-- What occurs in neither of two texts occurs in one after the other only across the border. -/
theorem absent_append (htext : ¬ pattern <:+: text) (hmore : ¬ pattern <:+: more)
    (hborder : ∀ part, part <:+ pattern → part <+: more → part = []) :
    ¬ pattern <:+: text ++ more := by
  rintro ⟨before, after, heq⟩
  rcases List.append_eq_append_iff.mp heq with ⟨rest, rfl, hafter⟩ | ⟨part, hpart, hmore'⟩
  · exact htext ⟨before, rest, rfl⟩
  · rcases List.append_eq_append_iff.mp hpart with ⟨front, rfl, rfl⟩ | ⟨front, -, rfl⟩
    · -- what lies behind the border is empty
      obtain rfl := hborder part (List.suffix_append front part) ⟨after, hmore'.symm⟩
      exact htext ⟨before, [], by rw [List.append_nil, List.append_nil]⟩
    · exact hmore ⟨front, after, hmore'.symm⟩

end

end Shell
