import Netfilum.Lib.Shell

namespace Netfilum

/-!
# Launching the server

`spawn_wsl_server` of `crates/netfilum-client/src/mount.rs` puts a shell command together, with
the words that come from outside in quotes.

* `shellQuote`, `launchCommand` — the text, as it is handed to `sh -lc`.
* `scan_shellQuote` — a quoted text is one word, whatever is in it.
* `parse_launchCommand`, `spawnWslServer_eq_ok` — the two commands of the text, for any root.
* `launch_words` — the text is two simple commands with the words that were meant.
-/

/-- The arguments of `netfilum up` that the launch uses; `addr` is the address as displayed. -/
structure UpArgs where
  distro      : String
  root        : String
  addr        : String
  volumeLabel : String
  password    : String

/-- `DEFAULT_WSL_ROOT`. -/
def defaultWslRoot : String := "/home/$USER/netfilum-root"

/-- What `shell_quote` puts in the place of a character. -/
def shellQuoteChar (c : Char) : List Char :=
  if c = '\x27' then ['\x27', '"', '\x27', '"', '\x27'] else [c]

/-- `shell_quote`. -/
def shellQuote (value : String) : String :=
  "'" ++ String.ofList (value.toList.flatMap shellQuoteChar) ++ "'"

/-- The `root` of `spawn_wsl_server`: the default one is left for the shell to expand. -/
def launchRoot (args : UpArgs) : String :=
  if args.root = defaultWslRoot then "\"$HOME/netfilum-root\"" else shellQuote args.root

/-- The `command` of `spawn_wsl_server`. -/
def launchCommand (daemonWsl : String) (args : UpArgs) : String :=
  "set -e; exec " ++ shellQuote daemonWsl ++ " --root " ++ launchRoot args ++ " --addr "
    ++ shellQuote args.addr ++ " --volume-label " ++ shellQuote args.volumeLabel
    ++ " --password " ++ shellQuote args.password

/-- `windows_path_to_wsl`. -/
def windowsPathToWsl (raw : String) : Except String String :=
  match raw.toList with
  -- the drive is one byte, so that the colon is the second
  | drive :: ':' :: c :: rest =>
    if drive.toNat < 128 then
      let suffix := (c :: rest).map fun c => if c = '\\' then '/' else c
      .ok ("/mnt/" ++ String.singleton drive.toLower ++ "/"
        ++ String.ofList (suffix.dropWhile (· = '/')))
    else .error ("unsupported Windows path: " ++ raw)
  | _ => .error ("unsupported Windows path: " ++ raw)

/-- The command line of `spawn_wsl_server`, for the daemon beside the client. -/
def spawnWslServer (daemon : String) (args : UpArgs) : Except String (List String) :=
  match windowsPathToWsl daemon with
  | .ok daemonWsl => .ok ["wsl.exe", "-d", args.distro, "sh", "-lc", launchCommand daemonWsl args]
  | .error error  => .error ("failed to map daemon path into WSL: " ++ error)

open Shell

/-! ### One quoted text -/

/-- What a shell makes of a character that was quoted. -/
def quotedGlyph (c : Char) : Glyph := ⟨c, if c = '\x27' then .double else .single⟩

/-- The word that a quoted text is. -/
def quotedWord (value : String) : Word := value.toList.map quotedGlyph

/-- A quoted character adds itself, and the quotation goes on. -/
theorem scan_shellQuoteChar {s : State} (hmode : s.mode = .single) (c : Char) :
    scan s (shellQuoteChar c) = some (s.add c (quotedGlyph c).quoting) := by
  unfold shellQuoteChar quotedGlyph
  by_cases hc : c = '\x27'
  · subst hc
    exact scan_requote hmode
  · rw [if_neg hc]
    dsimp only
    rw [if_neg hc]
    exact scan_single hmode hc

/-- Within the quotation, the text is read as it is. -/
theorem scan_flatMap_shellQuoteChar (cs : List Char) (w : Word) (tokens : List Token) :
    scan ⟨.single, some w, tokens⟩ (cs.flatMap shellQuoteChar)
      = some ⟨.single, some (w ++ cs.map quotedGlyph), tokens⟩ := by
  induction cs generalizing w with
  | nil => rw [List.map_nil, List.append_nil]; rfl
  | cons c cs ih =>
    have hchar : scan ⟨.single, some w, tokens⟩ (shellQuoteChar c)
        = some ⟨.single, some (w ++ [quotedGlyph c]), tokens⟩ := scan_shellQuoteChar rfl c
    rw [List.flatMap_cons, scan_append, hchar, Option.bind_some, ih, List.map_cons,
      List.append_assoc]
    rfl

/-- **A quoted text is one word**, whatever is in it, and the quotation ends behind it. -/
theorem scan_shellQuote (value : String) (tokens : List Token) :
    scan ⟨.bare, none, tokens⟩ (shellQuote value).toList
      = some ⟨.bare, some (quotedWord value), tokens⟩ := by
  have hsplit : (shellQuote value).toList
      = ['\x27'] ++ (value.toList.flatMap shellQuoteChar ++ ['\x27']) := by
    have hvalue : (String.ofList (value.toList.flatMap shellQuoteChar)).toList
        = value.toList.flatMap shellQuoteChar := String.toList_ofList
    unfold shellQuote
    rw [String.toList_append, String.toList_append, hvalue, List.append_assoc]
    rfl
  have hopen : scan ⟨.bare, none, tokens⟩ ['\x27'] = some ⟨.single, some [], tokens⟩ := rfl
  rw [hsplit, scan_append, hopen, Option.bind_some, scan_append, scan_flatMap_shellQuoteChar]
  rfl

/-- Nothing in a quoted text is expanded. -/
theorem literal_quotedWord (value : String) : (quotedWord value).literal = some value := by
  have hquoted : ∀ g ∈ quotedWord value,
      g.quoting = .single ∨ g.quoting = .double ∧ g.char ≠ '$' := by
    intro g hg
    obtain ⟨c, -, rfl⟩ := List.mem_map.mp hg
    unfold quotedGlyph
    by_cases hc : c = '\x27'
    · subst hc
      exact .inr (by decide)
    · exact .inl (if_neg hc)
  have hchars : (quotedWord value).map (·.char) = value.toList := by
    unfold quotedWord
    rw [List.map_map]
    exact List.map_id _
  rw [literal_of_quoted hquoted, hchars, String.ofList_toList]

/-! ### The whole text -/

/-- A text without quotes, as a word. -/
def plainWord (text : String) : Word := text.toList.map fun c => ⟨c, .bare⟩

/-- The word of the root; the default one has a dollar between double quotes. -/
def rootWord (args : UpArgs) : Word :=
  if args.root = defaultWslRoot then "$HOME/netfilum-root".toList.map fun c => ⟨c, .double⟩
  else quotedWord args.root

/-- The two commands. -/
def launchCommands (daemonWsl : String) (args : UpArgs) : List (List Word) :=
  [[plainWord "set", plainWord "-e"],
    [plainWord "exec", quotedWord daemonWsl, plainWord "--root", rootWord args,
      plainWord "--addr", quotedWord args.addr, plainWord "--volume-label",
      quotedWord args.volumeLabel, plainWord "--password", quotedWord args.password]]

/-- The text before the first quoted word is scanned. -/
theorem scan_start : scan {} "set -e; exec ".toList = some ⟨.bare, none,
    [.word (plainWord "set"), .word (plainWord "-e"), .operator ';', .word (plainWord "exec")]⟩ :=
  rfl

/-- The root is scanned as one word. -/
theorem scan_launchRoot (args : UpArgs) (tokens : List Token) :
    scan ⟨.bare, none, tokens⟩ (launchRoot args).toList
      = some ⟨.bare, some (rootWord args), tokens⟩ := by
  unfold launchRoot rootWord
  by_cases hroot : args.root = defaultWslRoot
  · rw [if_pos hroot, if_pos hroot]
    have hopen : scan ⟨.bare, none, tokens⟩ ['"'] = some ⟨.double, some [], tokens⟩ := rfl
    show scan _ (['"'] ++ ("$HOME/netfilum-root".toList ++ ['"'])) = _
    rw [scan_append, hopen, Option.bind_some, scan_append, scan_double (by decide)]
    rfl
  · rw [if_neg hroot, if_neg hroot]
    exact scan_shellQuote args.root tokens

/-- An option with a blank on either side: the word before ends, and the option is a word. -/
theorem scan_option {option : String} (hplain : option.toList.all isPlain)
    (hdash : option.toList.head? = some '-') (before : Word) (tokens : List Token) :
    scan ⟨.bare, some before, tokens⟩ (' ' :: option.toList ++ [' '])
      = some ⟨.bare, none, tokens ++ [.word before] ++ [.word (plainWord option)]⟩ := by
  obtain ⟨cs, hcs⟩ := List.head?_eq_some_iff.mp hdash
  have hstart : scan ⟨.bare, some before, tokens⟩ [' ', '-']
      = some ⟨.bare, some [⟨'-', .bare⟩], tokens ++ [.word before]⟩ := rfl
  rw [hcs, List.all_cons, Bool.and_eq_true] at hplain
  unfold plainWord
  rw [hcs]
  show scan _ ([' ', '-'] ++ (cs ++ [' '])) = _
  rw [scan_append, hstart, Option.bind_some, scan_append, scan_plain hplain.2]
  rfl

/-- An option and its value are two more words. -/
theorem scan_argument (gap option : String) {text value : String} {before word : Word}
    {tokens : List Token}
    (hgap : gap.toList = ' ' :: option.toList ++ [' '] ∧ option.toList.all isPlain ∧
      option.toList.head? = some '-')
    (htext : scan {} text.toList = some ⟨.bare, some before, tokens⟩)
    (hvalue : ∀ tokens, scan ⟨.bare, none, tokens⟩ value.toList = some ⟨.bare, some word, tokens⟩) :
    scan {} (text ++ gap ++ value).toList
      = some ⟨.bare, some word, tokens ++ [.word before] ++ [.word (plainWord option)]⟩ := by
  obtain ⟨hgap, hplain, hdash⟩ := hgap
  rw [String.toList_append, String.toList_append, scan_append, scan_append, htext,
    Option.bind_some, hgap, scan_option hplain hdash, Option.bind_some, hvalue]

/-- The commands that the text is read as, whatever the words are. -/
theorem parse_launchCommand (daemonWsl : String) (args : UpArgs) :
    parse (launchCommand daemonWsl args) = some (launchCommands daemonWsl args) := by
  have hdaemon : scan {} ("set -e; exec " ++ shellQuote daemonWsl).toList
      = some ⟨.bare, some (quotedWord daemonWsl), [.word (plainWord "set"),
          .word (plainWord "-e"), .operator ';', .word (plainWord "exec")]⟩ := by
    rw [String.toList_append, scan_append, scan_start, Option.bind_some, scan_shellQuote]
  -- the four options, one after another
  have hroot := scan_argument " --root " "--root" (by decide) hdaemon (scan_launchRoot args)
  have haddr := scan_argument " --addr " "--addr" (by decide) hroot (scan_shellQuote args.addr)
  have hlabel := scan_argument " --volume-label " "--volume-label" (by decide) haddr
    (scan_shellQuote args.volumeLabel)
  have hpassword := scan_argument " --password " "--password" (by decide) hlabel
    (scan_shellQuote args.password)
  have htokens : tokenize (launchCommand daemonWsl args).toList = some
      [.word (plainWord "set"), .word (plainWord "-e"), .operator ';', .word (plainWord "exec"),
        .word (quotedWord daemonWsl), .word (plainWord "--root"), .word (rootWord args),
        .word (plainWord "--addr"), .word (quotedWord args.addr),
        .word (plainWord "--volume-label"), .word (quotedWord args.volumeLabel),
        .word (plainWord "--password"), .word (quotedWord args.password)] := by
    unfold tokenize launchCommand
    rw [hpassword]
    rfl
  unfold parse
  rw [htokens, Option.bind_some]
  rfl

/-- What is started is a shell with one text, and what it reads there are the two commands. -/
theorem spawnWslServer_eq_ok {daemon : String} {args : UpArgs} {argv : List String}
    (h : spawnWslServer daemon args = .ok argv) :
    ∃ daemonWsl command, windowsPathToWsl daemon = .ok daemonWsl ∧
      argv = ["wsl.exe", "-d", args.distro, "sh", "-lc", command] ∧
      parse command = some (launchCommands daemonWsl args) := by
  unfold spawnWslServer at h
  cases hdaemon : windowsPathToWsl daemon with
  | error error => rw [hdaemon] at h; cases h
  | ok daemonWsl =>
    rw [hdaemon] at h
    cases h
    exact ⟨daemonWsl, _, rfl, rfl, parse_launchCommand daemonWsl args⟩

/-- **The launch command cannot be injected into.**  It is read as two simple commands, and
    unless the root is the default one, their words are those that were meant: nothing in
    them is expanded, and each is the text it was made from. -/
theorem launch_words (daemonWsl : String) (args : UpArgs) (hroot : args.root ≠ defaultWslRoot) :
    (parse (launchCommand daemonWsl args)).map (·.map (·.map Word.literal)) = some
      [[some "set", some "-e"],
        [some "exec", some daemonWsl, some "--root", some args.root, some "--addr",
          some args.addr, some "--volume-label", some args.volumeLabel, some "--password",
          some args.password]] := by
  have hword : (rootWord args).literal = some args.root := by
    unfold rootWord
    rw [if_neg hroot, literal_quotedWord]
  rw [parse_launchCommand, Option.map_some]
  unfold launchCommands
  simp only [List.map_cons, List.map_nil, hword, literal_quotedWord]
  rfl

/-- A password that closes the quotation and goes on with a command of its own, quotes at both
    ends of a label, a line break in the path and a root that looks like the default one. -/
theorem launch_words_hostile :
    (parse (launchCommand "/mnt/c/a\nb" ⟨"Debian", "/home/$USER/netfilum", "[::1]:7878", "''\"'",
        "'; rm -rf $HOME #\\"⟩)).map (·.map (·.map Word.literal)) = some
      [[some "set", some "-e"],
        [some "exec", some "/mnt/c/a\nb", some "--root", some "/home/$USER/netfilum",
          some "--addr", some "[::1]:7878", some "--volume-label", some "''\"'",
          some "--password", some "'; rm -rf $HOME #\\"]] :=
  launch_words "/mnt/c/a\nb" ⟨"Debian", "/home/$USER/netfilum", "[::1]:7878", "''\"'",
    "'; rm -rf $HOME #\\"⟩ (by decide)

end Netfilum
