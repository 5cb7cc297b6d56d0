import Netfilum.Server.Disclosure

namespace Netfilum

open Posix Program Rust

/-!
# Listing and addressing

`ReadDir` makes a text of every name and follows every link; `Stat` reads a text as a path
and refuses what leads outside.  They agree on the names that are text without a
backslash, at the entries that lead inside.

* `Legal` — the names that Linux permits.
* `ChildrenLead` — no entry of the directory is a dangling or looping link.
* `listing_agrees` — the listing has one entry for every name, in order, and `Stat` of a
  listed name finds the entry it was made from, with the same attributes.
-/

/-- The names Linux permits: non-empty, no slash, no NUL, not `.` or `..`. -/
def LegalName (n : Name) : Prop := n ≠ [] ∧ 47 ∉ n ∧ 0 ∉ n ∧ n ≠ [46] ∧ n ≠ [46, 46]

def Legal (t : Tree) : Prop := ∀ e ∈ t.entries, ∀ n ∈ e.loc, LegalName n

variable {srv : RpcServer} {os : Os} {t t' : Tree} {relative name : String} {path : PathBuf}
  {d q : Loc} {n : Name}

/-- A slash in a text is a slash in its bytes. -/
theorem LegalName.plain (h : LegalName (Utf8.encode name)) (hback : '\\' ∉ name.toList) :
    PlainName name := by
  obtain ⟨hne, hslash, -, hdot, hdots⟩ := h
  have hencode : ∀ cs, name.toList = cs → Utf8.encode name = Utf8.encodeChars cs := by
    rintro _ rfl
    rfl
  refine ⟨fun hmem => hslash ?_, hback, ?_⟩
  · exact List.mem_flatMap.mpr ⟨'/', hmem, by decide⟩
  · unfold segment
    split
    · rename_i heq
      exact absurd (hencode _ heq) hne
    · rename_i heq
      exact absurd (hencode _ heq) hdot
    · rename_i heq
      exact absurd (hencode _ heq) hdots
    · rfl

/-- A name in a legal tree is legal. -/
theorem Legal.legalName (h : Legal t) (hn : t.look (d ++ [n]) ≠ none) : LegalName n := by
  obtain ⟨e, he⟩ := Option.ne_none_iff_exists'.mp hn
  obtain ⟨hmem, hloc⟩ := Tree.look_eq_some_iff.mp he
  exact h e hmem n (by rw [hloc]; simp)

namespace RpcServer

/-- Every entry of the directory leads to an object. -/
def ChildrenLead (srv : RpcServer) (t : Tree) (relative : String) : Prop :=
  ∀ path d n, srv.Joins relative path → Fs.Leads t path d → t.look (d ++ [n]) ≠ none →
    ∃ q, Fs.Leads t (path.join [n]) q

/-- The entry named `name` of the directory at `d` is what `Stat` finds under that name. -/
structure Addressed (srv : RpcServer) (os : Os) (t : Tree) (relative : String) (d : Loc)
    (entry : DirEntry) (n : Name) : Prop where
  stat  : srv.dispatch os (.stat (childPath relative entry.name)) t = .ok (.attr entry.attr) t
  names : ∃ path, srv.Joins (childPath relative entry.name) path ∧ Names t path d n

/-! ### Addressing -/

/-- The path of a child is joined from the path and its name. -/
theorem Joins.child (h : srv.Joins relative path) (hname : PlainName name) :
    srv.Joins (childPath relative name) (path.join [Utf8.encode name]) := by
  obtain ⟨rel, hrel, rfl⟩ := h
  exact ⟨_, normalizeRelativePath_child hname hrel, PathBuf.join_join srv.root rel _⟩

/-- A listed name that is plain and leads inside is found again. -/
theorem addressed {entry : DirEntry} (hjoins : srv.Joins relative path) (hd : Fs.Leads t path d)
    (hdir : t.shape d = some .dir) (hname : PlainName name)
    (hlists : Lists t path (Utf8.encode name) entry)
    (hin : ∀ q, Fs.Leads t (path.join [Utf8.encode name]) q → srv.rootReal <+: q) :
    srv.Addressed os t relative d entry (Utf8.encode name) := by
  obtain ⟨q, e, hl, he, rfl⟩ := hlists
  have hjoins' := hjoins.child hname
  have hex : srv.Existing t (childPath relative name) (path.join [Utf8.encode name]) q :=
    ⟨hjoins', hl.1, hl.2, hin q hl⟩
  have hstat : srv.statPath (childPath relative name) t = .ok (attrOf e) t :=
    statPath_eq_ok.mpr ⟨⟨_, q, e, hex, he, rfl⟩, rfl⟩
  constructor
  · rw [Utf8.lossy_encode]
    exact map_eq_ok.mpr ⟨_, hstat, rfl⟩
  · rw [Utf8.lossy_encode]
    exact ⟨_, hjoins', names_join hd.2 hdir _⟩

/-! ### Listing -/

/-- A directory lists no name twice. -/
theorem namesAt_nodup (t : Tree) (d : Loc) : (namesAt t d).Nodup := by
  have hlocs : (t.children d).Pairwise fun e e' => e.loc ≠ e'.loc :=
    (List.pairwise_map.mp t.locs_nodup).sublist List.filter_sublist
  refine List.pairwise_filterMap.mpr (hlocs.imp_of_mem ?_)
  rintro e e' he he' hne n hn n' hn' rfl
  obtain ⟨-, -, hd⟩ := Tree.mem_children.mp he
  obtain ⟨-, -, hd'⟩ := Tree.mem_children.mp he'
  obtain ⟨up, hup⟩ := List.getLast?_eq_some_iff.mp hn
  obtain ⟨up', hup'⟩ := List.getLast?_eq_some_iff.mp hn'
  rw [hup, List.dropLast_concat] at hd
  rw [hup', List.dropLast_concat] at hd'
  exact hne (by rw [hup, hup', hd, hd'])

/-- The listing in order, each entry with the name it was made from. -/
theorem exists_made {names : List Name} {listed : List DirEntry}
    (h : List.Forall₂ (Lists t path) names listed) :
    ∃ made : List (Name × DirEntry), made.map Prod.snd = sortEntries listed ∧
      (made.map Prod.fst).Perm names ∧ ∀ i ∈ made, Lists t path i.1 i.2 := by
  have hlen := h.length_eq
  have hperm := List.mergeSort_perm (names.zip listed) fun i j => decide (i.2.name ≤ j.2.name)
  refine ⟨(names.zip listed).mergeSort fun i j => decide (i.2.name ≤ j.2.name), ?_, ?_, ?_⟩
  · rw [List.map_mergeSort (s := fun e e' : DirEntry => decide (e.name ≤ e'.name))
      (fun _ _ _ _ => rfl), List.map_snd_zip (by rw [hlen])]
    rfl
  · have := hperm.map Prod.fst
    rwa [List.map_fst_zip (by rw [hlen])] at this
  · intro i hi
    exact List.forall₂_zip h (hperm.mem_iff.mp hi)

/-- The entries are sorted by their names. -/
theorem sortEntries_pairwise (entries : List DirEntry) :
    (sortEntries entries).Pairwise fun e e' => e.name ≤ e'.name := by
  have htrans : ∀ a b c : DirEntry, decide (a.name ≤ b.name) = true →
      decide (b.name ≤ c.name) = true → decide (a.name ≤ c.name) = true := fun a b c hab hbc =>
    decide_eq_true (String.le_trans (of_decide_eq_true hab) (of_decide_eq_true hbc))
  have htotal : ∀ a b : DirEntry,
      (decide (a.name ≤ b.name) || decide (b.name ≤ a.name)) = true := fun a b => by
    simpa using String.le_total a.name b.name
  have hsorted := List.pairwise_mergeSort htrans htotal entries
  exact hsorted.imp of_decide_eq_true

/-- Names that are text are listed in strictly ascending order. -/
theorem made_strict {made : List (Name × DirEntry)} (hnodup : (made.map Prod.fst).Nodup)
    (hmade : ∀ i ∈ made, Lists t path i.1 i.2)
    (hsorted : (made.map Prod.snd).Pairwise fun e e' => e.name ≤ e'.name)
    (htext : ∀ i ∈ made, ∃ s, i.1 = Utf8.encode s) :
    (made.map Prod.snd).Pairwise fun e e' => e.name < e'.name := by
  rw [List.pairwise_map] at hsorted ⊢
  refine (hsorted.and (List.pairwise_map.mp hnodup)).imp_of_mem fun {i j} hi hj h => ?_
  obtain ⟨hle, hne⟩ := h
  by_contra hlt
  have heq := String.le_antisymm hle (String.not_lt.mp hlt)
  refine hne ?_
  obtain ⟨s, hs⟩ := htext i hi
  obtain ⟨s', hs'⟩ := htext j hj
  obtain ⟨q, e, -, -, hi⟩ := hmade i hi
  obtain ⟨q', e', -, -, hj⟩ := hmade j hj
  rw [hi, hj, hs, hs', Utf8.lossy_encode, Utf8.lossy_encode] at heq
  rw [hs, hs', show s = s' from heq]

/-- **Listing and addressing agree.**  In a directory whose entries all lead somewhere, the
    listing has one entry for every name, in order; and the entry of a name that is text
    without a backslash, if it leads inside, is what `Stat` of that name finds. -/
theorem listing_agrees (srv : RpcServer) (os : Os) (t t' : Tree) (relative : String)
    (attr : FileAttr) (hlegal : Legal t)
    (hstat : srv.dispatch os (.stat relative) t = .ok (.attr attr) t')
    (hkind : attr.kind = .directory) (hchildren : srv.ChildrenLead t relative) :
    ∃ (path : PathBuf) (d : Loc) (made : List (Name × DirEntry)),
      srv.Joins relative path ∧ Fs.Leads t path d ∧
      srv.dispatch os (.readDir relative) t = .ok (.dirEntries (made.map Prod.snd)) t ∧
      (made.map Prod.fst).Nodup ∧
      (∀ n, n ∈ made.map Prod.fst ↔ t.look (d ++ [n]) ≠ none) ∧
      (made.map Prod.snd).Pairwise (fun e e' => e.name ≤ e'.name) ∧
      ((∀ n, t.look (d ++ [n]) ≠ none → ∃ s, n = Utf8.encode s) →
        (made.map Prod.snd).Pairwise fun e e' => e.name < e'.name) ∧
      ∀ i ∈ made, Lists t path i.1 i.2 ∧
        ((∃ s, i.1 = Utf8.encode s ∧ '\\' ∉ s.toList) →
          (∀ q, Fs.Leads t (path.join [i.1]) q → srv.rootReal <+: q) →
            srv.Addressed os t relative d i.2 i.1) := by
  -- `Stat` found a directory
  obtain ⟨attr', hstat', hattr⟩ := map_eq_ok.mp hstat
  cases hattr
  obtain ⟨path, t1, hpath, hmeta⟩ := bind_eq_ok.mp hstat'
  obtain ⟨⟨d, hex⟩, rfl⟩ := resolveExisting_eq_ok.mp hpath
  obtain ⟨⟨d', e, hl, he, rfl⟩, rfl⟩ := attrForPath_eq_ok.mp hmeta
  have hd : Fs.Leads t' path d := ⟨hex.nul, hex.resolves⟩
  obtain rfl := hl.unique hd
  have hdir : t'.shape d' = some .dir := by
    have hs : e.shape = .dir := by
      by_contra hs
      simp only [attrOf, if_neg hs] at hkind
      cases hkind
    rw [Tree.shape_of_look he, hs]
  -- the attributes of every entry can be read, so the listing succeeds
  obtain ⟨listed, hlisted⟩ := exists_listed_iff.mpr fun n hn =>
    hchildren path d' n hex.joins hl (mem_namesAt.mp hn)
  obtain ⟨made, hsnd, hfst, hmade⟩ := exists_made hlisted
  have hread : srv.readDir relative t' = .ok (sortEntries listed) t' :=
    readDir_eq_ok.mpr ⟨⟨path, d', listed, hex, hdir, hlisted, rfl⟩, rfl⟩
  have hnodup : (made.map Prod.fst).Nodup := hfst.nodup_iff.mpr (namesAt_nodup t' d')
  have hnames : ∀ n, n ∈ made.map Prod.fst ↔ t'.look (d' ++ [n]) ≠ none := fun n =>
    hfst.mem_iff.trans mem_namesAt
  have hsorted : (made.map Prod.snd).Pairwise fun e e' => e.name ≤ e'.name := by
    rw [hsnd]
    exact sortEntries_pairwise listed
  refine ⟨path, d', made, hex.joins, hl, map_eq_ok.mpr ⟨_, hread, by rw [hsnd]⟩, hnodup, hnames,
    hsorted, fun htext => ?_, fun i hi => ⟨hmade i hi, ?_⟩⟩
  · exact made_strict hnodup hmade hsorted fun i hi =>
      htext i.1 ((hnames i.1).mp (List.mem_map_of_mem hi))
  · -- a name that survives the way to the client and back
    rintro ⟨name, hname, hback⟩ hin
    have hlegalName := hlegal.legalName ((hnames i.1).mp (List.mem_map_of_mem hi))
    have hlists := hmade i hi
    rw [hname] at hlegalName hlists hin ⊢
    exact addressed hex.joins hl hdir (hlegalName.plain hback) hlists hin

/-- All that is in `d` is a file. -/
theorem treeWithDir_children : serverAtR.ChildrenLead treeWithDir "d" := by
  have hjoins : serverAtR.Joins "d" ⟨["r", "d"].map Utf8.encode, false⟩ :=
    ⟨[Utf8.encode "d"], by decide, rfl⟩
  have hdir : Fs.Leads treeWithDir ⟨["r", "d"].map Utf8.encode, false⟩
      (["r", "d"].map Utf8.encode) := ⟨by decide, by decide⟩
  intro path d n hpath hd hn
  obtain rfl := hpath.unique hjoins
  obtain rfl := hd.unique hdir
  have hmem := mem_namesAt.mpr hn
  rw [show namesAt treeWithDir (["r", "d"].map Utf8.encode) = [Utf8.encode "b", Utf8.encode "a"]
    by decide] at hmem
  rcases List.mem_cons.mp hmem with rfl | hmem
  · exact ⟨["r", "d", "b"].map Utf8.encode, by decide, by decide⟩
  · rw [List.mem_singleton.mp hmem]
    exact ⟨["r", "d", "a"].map Utf8.encode, by decide, by decide⟩

/-- The two files of `d` are listed in the order of their names, and found under them. -/
theorem listing_agrees_dir :
    ∃ entries, serverAtR.dispatch (.atTime ⟨1, 0⟩) (.readDir "d") treeWithDir
        = .ok (.dirEntries entries) treeWithDir ∧
      entries.Pairwise (fun e e' => e.name < e'.name) ∧
      ∀ name ∈ ["a", "b"], ∃ entry ∈ entries,
        serverAtR.Addressed (.atTime ⟨1, 0⟩) treeWithDir "d" (["r", "d"].map Utf8.encode) entry
          (Utf8.encode name) := by
  obtain ⟨path, d, made, hjoins, hd, hread, -, hnames, -, hstrict, hmade⟩ :=
    listing_agrees serverAtR (.atTime ⟨1, 0⟩) treeWithDir treeWithDir "d"
      (attrOf (oldEntry ["r", "d"] 2 (.dir 0))) (by unfold Legal LegalName; decide) rfl (by decide)
      treeWithDir_children
  obtain rfl : path = ⟨["r", "d"].map Utf8.encode, false⟩ :=
    hjoins.unique ⟨[Utf8.encode "d"], by decide, rfl⟩
  obtain rfl : d = ["r", "d"].map Utf8.encode := hd.unique ⟨by decide, by decide⟩
  refine ⟨_, hread, hstrict fun n hn => ?_, fun name hname => ?_⟩
  · have hmem := mem_namesAt.mpr hn
    rw [show namesAt treeWithDir (["r", "d"].map Utf8.encode) = [Utf8.encode "b", Utf8.encode "a"]
      by decide] at hmem
    rcases List.mem_cons.mp hmem with rfl | hmem
    · exact ⟨"b", rfl⟩
    · exact ⟨"a", List.mem_singleton.mp hmem⟩
  · have hlook : treeWithDir.look (["r", "d"].map Utf8.encode ++ [Utf8.encode name]) ≠ none ∧
        '\\' ∉ name.toList ∧ Fs.Leads treeWithDir
          (PathBuf.join ⟨["r", "d"].map Utf8.encode, false⟩ [Utf8.encode name])
          (["r", "d", name].map Utf8.encode) := by
      rcases List.mem_cons.mp hname with rfl | hname
      · exact ⟨by decide, by decide, by decide, by decide⟩
      · obtain rfl := List.mem_singleton.mp hname
        exact ⟨by decide, by decide, by decide, by decide⟩
    obtain ⟨hpresent, hback, hleads⟩ := hlook
    obtain ⟨⟨n, entry⟩, hi, hn⟩ := List.mem_map.mp ((hnames (Utf8.encode name)).mpr hpresent)
    obtain rfl : n = Utf8.encode name := hn
    refine ⟨entry, List.mem_map_of_mem hi, (hmade _ hi).2 ⟨name, rfl, hback⟩ fun q hq => ?_⟩
    rw [hq.unique hleads]
    exact ⟨["d", name].map Utf8.encode, rfl⟩

/-! ### A backslash in a name -/

/-- In the exported `/r`, the directory `d` holds the file named `a\b`. -/
def treeWithBackslash : Tree where
  entries := [
    oldEntry [] 0 (.dir 0),
    oldEntry ["r"] 1 (.dir 0),
    oldEntry ["r", "d"] 2 (.dir 0),
    oldEntry ["r", "d", "a\\b"] 3 (.file [2])]
  next := 4
  locs_nodup := by decide
  inos_nodup := by decide
  inos_lt := by decide
  closed := by decide
  root := by decide

/-- The entry that `ReadDir "d"` makes of that file. -/
def backslashEntry : DirEntry := ⟨"a\\b", attrOf (oldEntry ["r", "d", "a\\b"] 3 (.file [2]))⟩

/-- `ReadDir "d"` lists `a\b`, but under this name `Stat` looks for `b` in a directory `a`. -/
theorem backslash_not_addressed :
    Legal treeWithBackslash ∧
      serverAtR.dispatch (.atTime ⟨1, 0⟩) (.stat "d") treeWithBackslash
        = .ok (.attr (attrOf (oldEntry ["r", "d"] 2 (.dir 0)))) treeWithBackslash ∧
      serverAtR.dispatch (.atTime ⟨1, 0⟩) (.readDir "d") treeWithBackslash
        = .ok (.dirEntries [backslashEntry]) treeWithBackslash ∧
      outcome (serverAtR.dispatch (.atTime ⟨1, 0⟩) (.stat ("d" ++ "/" ++ backslashEntry.name))
          treeWithBackslash)
        = .error ⟨.notFound, "No such file or directory (os error 2)"⟩ := by
  have hread : serverAtR.readDir "d" treeWithBackslash
      = .ok [backslashEntry] treeWithBackslash := by
    have hlists : Lists treeWithBackslash ⟨["r", "d"].map Utf8.encode, false⟩ (Utf8.encode "a\\b")
        backslashEntry :=
      ⟨["r", "d", "a\\b"].map Utf8.encode, oldEntry ["r", "d", "a\\b"] 3 (.file [2]),
        ⟨by decide, by decide⟩, by decide, by decide⟩
    have hnames : namesAt treeWithBackslash (["r", "d"].map Utf8.encode)
        = [Utf8.encode "a\\b"] := by
      decide
    refine readDir_eq_ok.mpr ⟨⟨_, ["r", "d"].map Utf8.encode, [backslashEntry],
      ⟨⟨[Utf8.encode "d"], by decide, rfl⟩, by decide, by decide, by decide⟩, by decide, ?_,
        ?_⟩, rfl⟩
    · rw [hnames]
      exact .cons hlists .nil
    · exact List.mergeSort_singleton _
  exact ⟨by unfold Legal LegalName; decide, rfl, map_eq_ok.mpr ⟨_, hread, rfl⟩, by decide⟩

end RpcServer

end Netfilum
