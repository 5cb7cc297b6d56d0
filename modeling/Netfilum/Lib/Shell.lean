namespace Shell

/-!
# Words of a shell command

What a POSIX shell makes of a command text: the quoting, the tokens, and the simple commands
of a list without other operators than `;` and the newline.  Text in `$(..)`, `${..}`, `$'..'`
and backquotes has rules of its own and is not read here; nor are commands that begin with a
reserved word or an assignment.

* `step` — what one more character means, in each quoting state.
* `parse` — the simple commands, each with its words.
* `Word.literal` — the text of a word in which nothing is expanded.
* `scan_plain` — what is read as it is without quotes.
* `scan_single`, `scan_requote` — what single quotes keep, and how one of them is kept.
* `literal_of_quoted` — a word that is quoted throughout is read as it is.
-/

/-- How a character of a word was quoted. -/
inductive Quoting where
  | bare
  | escaped
  | single
  | double
  deriving DecidableEq, Repr

/-- A character of a word. -/
structure Glyph where
  char    : Char
  quoting : Quoting
  deriving DecidableEq, Repr

/-- A word, before anything in it is expanded and the quotes are removed. -/
abbrev Word := List Glyph

/-- A token; an operator of more characters is read one by one. -/
inductive Token where
  | word (w : Word)
  | operator (c : Char)
  deriving DecidableEq, Repr

/-! ### Tokens -/

/-- The quoting state; the escapes are those right behind a backslash. -/
inductive Mode where
  | bare
  | escape
  | single
  | double
  | doubleEscape
  | comment
  deriving DecidableEq, Repr

/-- Where the tokenizer stands: the word it is in, if any, and the tokens before. -/
structure State where
  mode    : Mode := .bare
  current : Option Word := none
  tokens  : List Token := []
  deriving DecidableEq, Repr

namespace State

/-- The word grows, or a word begins. -/
def add (s : State) (c : Char) (quoting : Quoting) : State :=
  { s with current := some (s.current.getD [] ++ [⟨c, quoting⟩]) }

/-- A quotation begins, which is a word even if it is empty. -/
def quote (s : State) (mode : Mode) : State :=
  { s with mode, current := some (s.current.getD []) }

/-- The word ends, if there is one. -/
def delimit (s : State) : State :=
  { s with current := none, tokens := s.tokens ++ (s.current.map .word).toList }

/-- The character before was a dollar that is not quoted away. -/
def afterDollar (s : State) : Bool :=
  (s.current.getD []).getLast? ∈ [some ⟨'$', .bare⟩, some ⟨'$', .double⟩]

/-- Text with rules of its own begins: in backquotes, or between one of these and its end. -/
def substitutes (s : State) (c : Char) (opening : List Char) : Bool :=
  c = '\x60' ∨ c ∈ opening ∧ s.afterDollar

end State

/-- `<blank>`. -/
def isBlank (c : Char) : Bool := c = ' ' ∨ c = '\t'

/-- The characters that operators are made of, with the newline. -/
def isOperator (c : Char) : Bool := c ∈ [';', '&', '|', '<', '>', '(', ')', '\n']

/-- What a backslash quotes between double quotes. -/
def isDoubleEscaped (c : Char) : Bool := c ∈ ['$', '\x60', '"', '\\']

/-- One more character. -/
def step (s : State) (c : Char) : Option State :=
  match s.mode with
  | .bare =>
    if s.substitutes c ['(', '{', '\x27'] then none
    else if c = '\\' then some { s with mode := .escape }
    else if c = '\x27' then some (s.quote .single)
    else if c = '"' then some (s.quote .double)
    else if isBlank c then some s.delimit
    else if isOperator c then
      some { s.delimit with tokens := s.delimit.tokens ++ [.operator c] }
    else if c = '#' ∧ s.current = none then some { s with mode := .comment }
    else some (s.add c .bare)
  | .escape =>
    -- a backslash before a newline continues the line
    if c = '\n' then some { s with mode := .bare }
    else some { s.add c .escaped with mode := .bare }
  | .single =>
    if c = '\x27' then some { s with mode := .bare } else some (s.add c .single)
  | .double =>
    if s.substitutes c ['(', '{'] then none
    else if c = '"' then some { s with mode := .bare }
    else if c = '\\' then some { s with mode := .doubleEscape }
    else some (s.add c .double)
  | .doubleEscape =>
    if c = '\n' then some { s with mode := .double }
    else if isDoubleEscaped c then some { s.add c .escaped with mode := .double }
    -- before any other character the backslash stays
    else some { (s.add '\\' .double).add c .double with mode := .double }
  | .comment =>
    if c = '\n' then some { s with mode := .bare, tokens := s.tokens ++ [.operator c] }
    else some s

/-- The characters of a text, one after another. -/
def scan : State → List Char → Option State
  | s, []        => some s
  | s, c :: rest => (step s c).bind fun s => scan s rest

/-- The tokens of a text; a quotation that does not end has none. -/
def tokenize (text : List Char) : Option (List Token) :=
  match scan {} text with
  | some s => if s.mode = .bare ∨ s.mode = .comment then some s.delimit.tokens else none
  | none   => none

/-! ### Simple commands -/

/-- The reserved words. -/
def reserved : List String :=
  ["!", "\x7b", "\x7d", "case", "do", "done", "elif", "else", "esac", "fi", "for", "if", "in",
    "then", "until", "while"]

/-- The word is a reserved one: nothing of it is quoted. -/
def Word.isReserved (w : Word) : Bool :=
  w.all (·.quoting = .bare) ∧ String.ofList (w.map (·.char)) ∈ reserved

/-- A letter, a digit or an underscore. -/
def isNameChar (c : Char) : Bool := c.isAlphanum ∨ c = '_'

/-- The word assigns a variable: a name and an equals sign, both without quotes. -/
def Word.isAssignment (w : Word) : Bool :=
  let name := w.takeWhile fun g => g.quoting = .bare ∧ isNameChar g.char
  match name, w.drop name.length with
  | first :: _, ⟨'=', .bare⟩ :: _ => !first.char.isDigit
  | _, _ => false

/-- The words of a simple command, if they are one. -/
def simple (words : List Word) : Option (List Word) :=
  match words with
  | []         => none
  | first :: _ => if first.isReserved ∨ first.isAssignment then none else some words

/-- The simple commands of a list; `words` are those of the command that is being read. -/
def commands (words : List Word) : List Token → Option (List (List Word))
  | [] => if words = [] then some [] else (simple words).map ([·])
  | .word w :: rest => commands (words ++ [w]) rest
  | .operator c :: rest =>
    if c = '\n' ∧ words = [] then commands [] rest
    else if c = ';' ∨ c = '\n' then do
      let command ← simple words
      let others ← commands [] rest
      return command :: others
    else none

/-- The simple commands of a text. -/
def parse (text : String) : Option (List (List Word)) :=
  (tokenize text.toList).bind (commands [])

/-! ### Words without expansions -/

/-- A character that begins an expansion, or is part of a pattern. -/
def Glyph.isActive (g : Glyph) : Bool :=
  match g.quoting with
  | .bare             => g.char ∈ ['$', '*', '?', '[']
  | .double           => g.char = '$'
  | .single | .escaped => false

/-- A tilde in front is expanded, too. -/
def Word.hasTilde (w : Word) : Bool := w.head? = some ⟨'~', .bare⟩

/-- The text of a word in which nothing is expanded, once the quotes are removed. -/
def Word.literal (w : Word) : Option String :=
  if w.any Glyph.isActive ∨ w.hasTilde then none else some (String.ofList (w.map (·.char)))

/-! ### What quotes keep -/

/-- A text is scanned piece by piece. -/
theorem scan_append (s : State) (text more : List Char) :
    scan s (text ++ more) = (scan s text).bind fun s => scan s more := by
  induction text generalizing s with
  | nil => rfl
  | cons c text ih =>
    show (step s c).bind _ = ((step s c).bind _).bind _
    cases step s c with
    | none => rfl
    | some s' => exact ih s'

/-- Single quotes keep every character but themselves. -/
theorem scan_single {s : State} (hmode : s.mode = .single) {c : Char} (hc : c ≠ '\x27') :
    scan s [c] = some (s.add c .single) := by
  have hstep : step s c = some (s.add c .single) := by
    unfold step
    rw [hmode]
    exact if_neg hc
  show (step s c).bind _ = _
  rw [hstep]
  rfl

/-- A character that means nothing but itself, without quotes. -/
def isPlain (c : Char) : Bool :=
  c ∉ ['\x60', '(', '{', '\x27', '\\', '"'] ∧ isBlank c = false ∧ isOperator c = false

/-- A plain character outside of quotes belongs to the word. -/
theorem step_plain {s : State} (hmode : s.mode = .bare) {c : Char} (hc : isPlain c = true)
    (hword : ¬ (c = '#' ∧ s.current = none)) : step s c = some (s.add c .bare) := by
  obtain ⟨hlist, hblank, hoperator⟩ := of_decide_eq_true hc
  simp only [List.mem_cons, List.not_mem_nil, or_false, not_or] at hlist
  obtain ⟨htick, hparen, hbrace, hquote, hback, hdouble⟩ := hlist
  have hsub : s.substitutes c ['(', '{', '\x27'] = false := by
    unfold State.substitutes
    simp [htick, hparen, hbrace, hquote]
  unfold step
  rw [hmode]
  dsimp only
  rw [hsub, hblank, hoperator, if_neg Bool.false_ne_true, if_neg hback, if_neg hquote,
    if_neg hdouble, if_neg Bool.false_ne_true, if_neg Bool.false_ne_true, if_neg hword]

/-- Within a word, a plain text is read as it is. -/
theorem scan_plain {cs : List Char} (h : cs.all isPlain) (w : Word) (tokens : List Token) :
    scan ⟨.bare, some w, tokens⟩ cs
      = some ⟨.bare, some (w ++ cs.map fun c => ⟨c, .bare⟩), tokens⟩ := by
  induction cs generalizing w with
  | nil => rw [List.map_nil, List.append_nil]; rfl
  | cons c cs ih =>
    rw [List.all_cons, Bool.and_eq_true] at h
    have hstep : step ⟨.bare, some w, tokens⟩ c = some ⟨.bare, some (w ++ [⟨c, .bare⟩]), tokens⟩ :=
      step_plain rfl h.1 (fun hnone => by cases hnone.2)
    show (step _ _).bind _ = _
    rw [hstep, Option.bind_some, ih h.2, List.map_cons, List.append_assoc]
    rfl

/-- Double quotes keep a text without quotes, backslashes and brackets; a dollar in it is still
    one that is expanded. -/
theorem scan_double {cs : List Char} (h : cs.all (· ∉ ['"', '\\', '\x60', '(', '{'])) (w : Word)
    (tokens : List Token) :
    scan ⟨.double, some w, tokens⟩ cs
      = some ⟨.double, some (w ++ cs.map fun c => ⟨c, .double⟩), tokens⟩ := by
  induction cs generalizing w with
  | nil => rw [List.map_nil, List.append_nil]; rfl
  | cons c cs ih =>
    rw [List.all_cons, Bool.and_eq_true, decide_eq_true_iff] at h
    obtain ⟨hc, hcs⟩ := h
    simp only [List.mem_cons, List.not_mem_nil, or_false, not_or] at hc
    obtain ⟨hquote, hback, htick, hparen, hbrace⟩ := hc
    have hsub : State.substitutes ⟨.double, some w, tokens⟩ c ['(', '{'] = false := by
      unfold State.substitutes
      simp [htick, hparen, hbrace]
    have hstep : step ⟨.double, some w, tokens⟩ c
        = some ⟨.double, some (w ++ [⟨c, .double⟩]), tokens⟩ := by
      unfold step
      dsimp only
      rw [hsub, if_neg Bool.false_ne_true, if_neg hquote, if_neg hback]
      rfl
    show (step _ _).bind _ = _
    rw [hstep, Option.bind_some, ih hcs, List.map_cons, List.append_assoc]
    rfl

/-- Behind any other character no dollar has to be decided on. -/
theorem afterDollar_add (s : State) {c : Char} (hc : c ≠ '$') (quoting : Quoting) :
    (s.add c quoting).afterDollar = false := by
  unfold State.afterDollar State.add
  dsimp only
  rw [Option.getD_some, List.getLast?_concat]
  simp [hc]

/-- Unless a dollar stands before it, a quote begins a quotation. -/
theorem step_quote {s : State} (hmode : s.mode = .bare) (hdollar : s.afterDollar = false) :
    step s '\x27' = some (s.quote .single) := by
  have hsub : s.substitutes '\x27' ['(', '{', '\x27'] = false := by
    unfold State.substitutes
    rw [hdollar]
    decide
  unfold step
  rw [hmode]
  dsimp only
  rw [hsub]
  rfl

/-- The quotation ends, a quote stands between double quotes, and the quotation begins again:
    the word only grows by the quote. -/
theorem scan_requote {s : State} (hmode : s.mode = .single) :
    scan s ['\x27', '"', '\x27', '"', '\x27'] = some (s.add '\x27' .double) := by
  obtain ⟨mode, current, tokens⟩ := s
  obtain rfl : mode = .single := hmode
  have hdouble : scan ⟨.single, current, tokens⟩ ['\x27', '"', '\x27', '"']
      = some (State.add ⟨.bare, current, tokens⟩ '\x27' .double) := rfl
  have hagain : scan (State.add ⟨.bare, current, tokens⟩ '\x27' .double) ['\x27']
      = some (State.add ⟨.single, current, tokens⟩ '\x27' .double) := by
    have hstep := step_quote (s := State.add ⟨.bare, current, tokens⟩ '\x27' .double) rfl
      (afterDollar_add _ (by decide) _)
    show (step _ _).bind _ = _
    rw [hstep]
    rfl
  exact (scan_append _ ['\x27', '"', '\x27', '"'] ['\x27']).trans (by rw [hdouble]; exact hagain)

/-- A word that is quoted throughout is read as it is. -/
theorem literal_of_quoted {w : Word}
    (h : ∀ g ∈ w, g.quoting = .single ∨ g.quoting = .double ∧ g.char ≠ '$') :
    w.literal = some (String.ofList (w.map (·.char))) := by
  have hactive : ¬ w.any Glyph.isActive = true := by
    rw [List.any_eq_true]
    rintro ⟨⟨c, quoting⟩, hmem, hact⟩
    rcases h _ hmem with hq | ⟨hq, hc⟩
    · obtain rfl : quoting = .single := hq
      cases hact
    · obtain rfl : quoting = .double := hq
      exact hc (of_decide_eq_true hact)
  have htilde : ¬ w.hasTilde = true := by
    intro ht
    have hmem := List.mem_of_head? (of_decide_eq_true ht)
    rcases h _ hmem with hq | ⟨hq, -⟩ <;> cases hq
  exact if_neg (not_or.mpr ⟨hactive, htilde⟩)

end Shell
