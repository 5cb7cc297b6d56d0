import Netfilum.Client.Launch
import Netfilum.Lib.Expansion
import Netfilum.Lib.UnixPath

namespace Netfilum

open Shell

/-!
# The root that is exported

`expand_root` of `crates/netfilum-server/src/server.rs`, behind the shell that `netfilum up`
starts the daemon with: of the root that is passed on, either the shell expands something, or the
daemon.

* `expandRoot` — what the daemon makes of its argument.
* `executed` — the commands of a text, with the words that a shell makes of them.
* `launched_root` — a daemon that is launched exports what one with the same root exports.
-/

/-- `expand_root`; `var` is `std::env::var`. -/
def expandRoot (var : String → Option String) (raw : String) : String :=
  let home := ((var "HOME").or (var "USERPROFILE")).getD "."
  if "$USER".toList <:+: raw.toList then
    String.ofList (replaceAll "/home/$USER".toList home.toList 0 raw.toList)
  else if raw = "~" then home
  else if ['~', '/'] <+: raw.toList then
    String.ofList (UnixPath.push '/' home.toList (raw.toList.drop 2))
  else raw

/-- The simple commands of a text, with the words that are made of theirs. -/
def executed (var : String → Option String) (text : String) : Option (List (List String)) :=
  (parse text).bind fun commands => commands.mapM fun words => words.mapM (Word.expand var)

variable {var : String → Option String} {home : String}

/-- A root below an absolute home directory is taken as it is. -/
theorem expandRoot_below_home (habs : home.toList.head? = some '/')
    (huser : ¬ "/home/$USER".toList <:+: home.toList) :
    expandRoot var (home ++ "/netfilum-root") = home ++ "/netfilum-root" := by
  have htext : (home ++ "/netfilum-root").toList = home.toList ++ "/netfilum-root".toList :=
    String.toList_append
  obtain ⟨rest, hrest⟩ := List.head?_eq_some_iff.mp habs
  have hfirst : ∃ rest, (home ++ "/netfilum-root").toList = '/' :: rest :=
    ⟨_, by rw [htext, hrest, List.cons_append]⟩
  obtain ⟨rest', hrest'⟩ := hfirst
  -- no occurrence begins in the home directory and ends behind it
  have hnone : ¬ "/home/$USER".toList <:+: (home ++ "/netfilum-root").toList := by
    rw [htext]
    refine absent_append huser (by decide) fun part hsuffix hfront => ?_
    have hall : ∀ part ∈ "/home/$USER".toList.tails, part <+: "/netfilum-root".toList →
        part = [] := by decide
    exact hall part ((List.mem_tails part _).mpr hsuffix) hfront
  unfold expandRoot
  split
  · dsimp only
    rw [replaceAll_of_absent hnone, String.ofList_toList]
  · rw [if_neg, if_neg]
    · rw [hrest']
      rintro ⟨_, heq⟩
      cases heq
    · intro heq
      rw [heq] at hrest'
      cases hrest'

/-- The default root is below the home directory. -/
theorem expandRoot_default (hhome : var "HOME" = some home) :
    expandRoot var defaultWslRoot = home ++ "/netfilum-root" := by
  unfold expandRoot
  rw [hhome]
  have hreplaced : replaceAll "/home/$USER".toList home.toList 0 defaultWslRoot.toList
      = home.toList ++ "/netfilum-root".toList := rfl
  refine (if_pos (by decide)).trans ?_
  show String.ofList (replaceAll _ home.toList 0 _) = _
  rw [hreplaced, ← String.toList_append, String.ofList_toList]

/-- `HOME` is an absolute path in which `/home/$USER` does not occur. -/
def Homed (var : String → Option String) : Prop :=
  ∃ home, var "HOME" = some home ∧ home.toList.head? = some '/' ∧
    ¬ "/home/$USER".toList <:+: home.toList

/-- The shell takes any root as it is, but for the default one: of this it makes one of which the
    daemon makes the same. -/
theorem expand_rootWord (args : UpArgs) (hhomed : args.root = defaultWslRoot → Homed var) :
    ∃ root, Word.expand var (rootWord args) = some root ∧
      expandRoot var root = expandRoot var args.root := by
  unfold rootWord
  by_cases hroot : args.root = defaultWslRoot
  · rw [if_pos hroot, hroot]
    obtain ⟨home, hhome, habs, huser⟩ := hhomed hroot
    have hword : Word.expand var ("$HOME/netfilum-root".toList.map fun c => ⟨c, .double⟩)
        = some (String.ofList (((var "HOME").getD "").toList ++ "/netfilum-root".toList)) := rfl
    refine ⟨home ++ "/netfilum-root", ?_, ?_⟩
    · rw [hword, hhome, Option.getD_some, ← String.toList_append, String.ofList_toList]
    · rw [expandRoot_default hhome, expandRoot_below_home habs huser]
  · rw [if_neg hroot]
    exact ⟨args.root, expand_of_literal (literal_quotedWord args.root), rfl⟩

/-- **What is launched exports what was asked for.**  The shell that `netfilum up` starts executes
    the daemon with the address, the label and the password that it was given, and with a root of
    which the daemon makes what it makes of the one that was given; so it does with the default
    one, which the shell expands and the daemon finds expanded, where `HOME` is as usual. -/
theorem launched_root (var : String → Option String) (daemonWsl : String) (args : UpArgs)
    (hhomed : args.root = defaultWslRoot → Homed var) :
    ∃ root, executed var (launchCommand daemonWsl args) = some
        [["set", "-e"],
          ["exec", daemonWsl, "--root", root, "--addr", args.addr, "--volume-label",
            args.volumeLabel, "--password", args.password]] ∧
      expandRoot var root = expandRoot var args.root := by
  have hquoted : ∀ text, Word.expand var (quotedWord text) = some text := fun text =>
    expand_of_literal (literal_quotedWord text)
  obtain ⟨root, hword, hexpand⟩ := expand_rootWord args hhomed
  refine ⟨root, ?_, hexpand⟩
  unfold executed
  rw [parse_launchCommand, Option.bind_some]
  unfold launchCommands
  simp only [List.mapM_cons, List.mapM_nil, hquoted, hword]
  rfl

/-- The default root, where a directory is named after the variable. -/
theorem launched_root_default :
    ∃ root, executed (fun name => if name = "HOME" then some "/srv/$USER" else none)
        (launchCommand "/mnt/c/netfilumd" ⟨"Debian", defaultWslRoot, "[::1]:7878", "", "'"⟩) = some
        [["set", "-e"],
          ["exec", "/mnt/c/netfilumd", "--root", root, "--addr", "[::1]:7878", "--volume-label",
            "", "--password", "'"]] ∧
      expandRoot (fun name => if name = "HOME" then some "/srv/$USER" else none) root
        = expandRoot (fun name => if name = "HOME" then some "/srv/$USER" else none)
            defaultWslRoot :=
  launched_root _ "/mnt/c/netfilumd" ⟨"Debian", defaultWslRoot, "[::1]:7878", "", "'"⟩
    fun _ => ⟨"/srv/$USER", rfl, by decide, by decide⟩

end Netfilum
