import Netfilum.Server.Containment
import Netfilum.Server.Contents

namespace Netfilum

open Posix Program Rust

/-!
# What the responses disclose

A response describes the objects whose attributes or contents it carries.  All of them
should lie in the exported root.  Every request checks the object its path leads to, but a
listing also describes the objects its entries lead to, and these are not checked.

* `Response.parts` — the attributes and contents a response carries.
* `Describes` — the object that a part of a response describes, at its location in the
  tree the response was made from.
* `ListsOutside` — a listing that succeeds although an entry leads outside.
* `undisclosed_iff` — the responses to a request describe only exported objects exactly
  when it is no such listing.
-/

/-- The path that a request is about. -/
def Request.path : Request → Option String
  | .stat path | .open path | .create path .. | .readDir path | .read path .. | .write path ..
  | .canDelete path _ | .removeFile path | .removeDir path | .rename path .. | .setLen path ..
  | .setBasicInfo path _ => some path
  | .flush path => path
  | .getVolumeInfo => none

/-- What a response says of one object. -/
inductive Part where
  | attr (attr : FileAttr)
  | data (data : List UInt8)
  | entry (entry : DirEntry)

/-- The attributes and contents in a response.  No bytes say nothing. -/
def Response.parts : Response → List Part
  | .attr a | .writeResult _ a  => [.attr a]
  | .data bytes                 => if bytes = [] then [] else [.data bytes]
  | .dirEntries entries         => entries.map .entry
  | .volumeInfo _ | .empty      => []

variable {srv : RpcServer} {os : Os} {t t' : Tree} {relative : String} {path : PathBuf} {q : Loc}

namespace RpcServer

/-- The part of a response about `path`, made from the tree `t`, describes the object at
    `q`. -/
def DescribesAt (t : Tree) (path : PathBuf) (q : Loc) : Part → Prop
  | .attr attr   => Fs.Leads t path q ∧ ∃ e, t.look q = some e ∧ attrOf e = attr
  | .data bytes  => Fs.Leads t path q ∧ ∃ content, Fs.dataAt t q = some content ∧ bytes <:+: content
  | .entry entry => ∃ d n, Fs.Leads t path d ∧ t.look (d ++ [n]) ≠ none ∧
      Fs.Leads t (path.join [n]) q ∧ ∃ e, t.look q = some e ∧ ⟨Utf8.lossy n, attrOf e⟩ = entry

/-- The part of the response to a request describes the object at `q`. -/
def Describes (srv : RpcServer) (t : Tree) (request : Request) (q : Loc) (part : Part) : Prop :=
  ∃ relative path, request.path = some relative ∧ srv.Joins relative path ∧
    DescribesAt t path q part

/-- Every part of the response describes an object, and only exported ones. -/
def Confines (srv : RpcServer) (t : Tree) (request : Request) (response : Response) : Prop :=
  ∀ part ∈ response.parts, (∃ q, srv.Describes t request q part) ∧
    ∀ q, srv.Describes t request q part → srv.rootReal <+: q

/-- The request lists a directory with an entry that leads outside the exported root, and
    every entry leads somewhere. -/
def ListsOutside (srv : RpcServer) (t : Tree) (request : Request) : Prop :=
  ∃ relative path d, request = .readDir relative ∧ srv.Existing t relative path d ∧
    t.shape d = some .dir ∧
    (∀ n, t.look (d ++ [n]) ≠ none → ∃ q, Fs.Leads t (path.join [n]) q) ∧
    ∃ n q, t.look (d ++ [n]) ≠ none ∧ Fs.Leads t (path.join [n]) q ∧ ¬ srv.rootReal <+: q

/-! ### Attributes of the path itself -/

/-- The attributes were read through the path at the end, and it leads inside. -/
def ReadsInside (srv : RpcServer) (t : Tree) (relative : String) (attr : FileAttr) : Prop :=
  ∃ path q, srv.Joins relative path ∧ srv.rootReal <+: q ∧ DescribesAt t path q (.attr attr)

/-- The attributes of a path that leads inside. -/
theorem readsInside {attr : FileAttr} (hjoins : srv.Joins relative path)
    (hres : resolve t path = .ok q) (hin : srv.rootReal <+: q)
    (hattr : attrForPath path t = .ok attr t') : srv.ReadsInside t' relative attr := by
  obtain ⟨⟨q', e, hl, he, heq⟩, rfl⟩ := attrForPath_eq_ok.mp hattr
  obtain rfl := hl.unique ⟨hl.1, hres⟩
  exact ⟨path, q', hjoins, hin, hl, e, he, heq⟩

/-- A checked path still leads inside when nothing was moved since. -/
theorem Existing.readsInside {attr : FileAttr} {t'' : Tree} (h : srv.Existing t relative path q)
    (hshape : t'.shape = t.shape) (hattr : attrForPath path t' = .ok attr t'') :
    srv.ReadsInside t'' relative attr :=
  RpcServer.readsInside h.joins (by rw [resolve_congr hshape, h.resolves]) h.within hattr

/-- `stat_path` reads attributes inside. -/
theorem statPath_reads {attr : FileAttr} (h : srv.statPath relative t = .ok attr t') :
    srv.ReadsInside t' relative attr := by
  obtain ⟨path, t1, hpath, hattr⟩ := bind_eq_ok.mp h
  obtain ⟨⟨q, hex⟩, rfl⟩ := resolveExisting_eq_ok.mp hpath
  exact hex.readsInside rfl hattr

/-- `write_file` reads attributes inside. -/
theorem writeFile_reads {offset : UInt64} {data : List UInt8} {toEof : Bool} {r : Response}
    (h : srv.writeFile os relative offset data toEof t = .ok r t') :
    ∃ attr, r = .writeResult (UInt32.ofNat data.length) attr ∧
      srv.ReadsInside t' relative attr := by
  obtain ⟨path, q, content, attr, -, -, hholds, -, -, rfl⟩ := writeFile_eq_ok h
  obtain ⟨path', hex⟩ := hholds.existing
  obtain ⟨e, he, -, hattr⟩ := hholds.entry
  exact ⟨attr, rfl, path', q, hex.joins, hex.within, ⟨hex.nul, hex.resolves⟩, e, he, hattr⟩

/-- `set_len` reads attributes inside. -/
theorem setLen_reads {size : UInt64} {allocation : Bool} {attr : FileAttr}
    (h : srv.setLen os relative size allocation t = .ok attr t') :
    srv.ReadsInside t' relative attr := by
  obtain ⟨path, t1, hpath, h1⟩ := bind_eq_ok.mp h
  obtain ⟨⟨q, hex⟩, rfl⟩ := resolveExisting_eq_ok.mp hpath
  obtain ⟨u, t2, hset, hattr⟩ := bind_eq_ok.mp h1
  refine hex.readsInside ?_ hattr
  split at hset
  · cases hset
    rfl
  · exact (still_truncateFile path size).shape_eq hset

/-- `set_basic_info` reads attributes inside. -/
theorem setBasicInfo_reads {update : BasicInfoUpdate} {attr : FileAttr}
    (h : srv.setBasicInfo os relative update t = .ok attr t') :
    srv.ReadsInside t' relative attr := by
  obtain ⟨path, t1, hpath, h1⟩ := bind_eq_ok.mp h
  obtain ⟨⟨q, hex⟩, rfl⟩ := resolveExisting_eq_ok.mp hpath
  obtain ⟨u, t2, hro, h2⟩ := bind_eq_ok.mp h1
  have hshape := (still_readonlyStep path _).shape_eq hro
  obtain ⟨atime, t3, hat, h3⟩ := bind_eq_ok.mp h2
  obtain rfl := (quiet_currentAccessTime path).state_eq hat
  obtain ⟨mtime, t4, hmt, h4⟩ := bind_eq_ok.mp h3
  obtain rfl := (quiet_currentModifiedTime path).state_eq hmt
  obtain ⟨u', t5, hset, hattr⟩ := bind_eq_ok.mp h4
  refine hex.readsInside ?_ hattr
  rw [← hshape]
  split at hset
  · exact (Fs.still_setFileTimes _ _).shape_eq (io_eq_ok.mp hset)
  · cases hset
    rfl

/-- What was added at a path is where the path then leads. -/
theorem createEntry_reads {kind : EntryKind} {attr : FileAttr}
    (h : srv.createEntry os relative kind t = .ok attr t') : srv.ReadsInside t' relative attr := by
  obtain ⟨path, t1, hpath, h1⟩ := bind_eq_ok.mp h
  obtain ⟨⟨q, hnew⟩, rfl⟩ := resolveForNewPath_eq_ok.mp hpath
  cases kind with
  | file =>
    obtain ⟨u, t2, hcreate, hattr⟩ := bind_eq_ok.mp h1
    obtain ⟨-, d, x, hnames, htr, hfree, rfl⟩ := Fs.createNew_eq_ok.mp (io_eq_ok.mp hcreate)
    have hres := hnames.resolve_insert (a := os.newAttr os.filePerm) (b := .file []) hfree
      (.inr ⟨rfl, htr⟩)
    exact readsInside hnew.joins (by rwa [resolve_touch])
      (hnew.within_entry hnames) hattr
  | directory =>
    obtain ⟨u, t2, hcreate, hattr⟩ := bind_eq_ok.mp h1
    obtain ⟨-, d, x, hnames, hfree, rfl⟩ := Fs.createDir_eq_ok.mp (io_eq_ok.mp hcreate)
    have hres := hnames.resolve_insert (a := os.newAttr os.dirPerm) (b := .dir os.dirSize) hfree
      (.inl rfl)
    exact readsInside hnew.joins (by rwa [resolve_touch])
      (hnew.within_entry hnames) hattr

/-- A response with such attributes is confined. -/
theorem ReadsInside.confines {attr : FileAttr} {request : Request} {response : Response}
    (h : srv.ReadsInside t relative attr) (hpath : request.path = some relative)
    (hparts : response.parts = [.attr attr]) : srv.Confines t request response := by
  obtain ⟨path, q, hjoins, hin, hdesc⟩ := h
  intro part hpart
  rw [hparts, List.mem_singleton] at hpart
  subst hpart
  refine ⟨⟨q, relative, path, hpath, hjoins, hdesc⟩, ?_⟩
  rintro q' ⟨relative', path', hpath', hjoins', hdesc'⟩
  cases hpath.symm.trans hpath'
  obtain rfl := hjoins.unique hjoins'
  obtain rfl := hdesc.1.unique hdesc'.1
  exact hin

/-! ### Contents -/

/-- `read_file` confines itself to a file inside. -/
theorem readFile_confines {offset : UInt64} {length : UInt32} {bytes : List UInt8}
    (h : srv.readFile os relative offset length t = .ok bytes t') :
    srv.Confines t' (.read relative offset length) (.data bytes) := by
  obtain ⟨path, q, content, hex, hd, hbytes, rfl⟩ := readFile_eq_ok h
  have hl : Fs.Leads t' path q := ⟨hex.nul, hex.resolves⟩
  have hsub : bytes <:+: content := by
    rw [hbytes]
    exact (List.take_prefix _ _).isInfix.trans (List.drop_suffix _ _).isInfix
  intro part hpart
  have hdata : part = .data bytes := by
    simp only [Response.parts] at hpart
    split at hpart
    · cases hpart
    · exact List.mem_singleton.mp hpart
  subst hdata
  refine ⟨⟨q, relative, path, rfl, hex.joins, hl, content, hd, hsub⟩, ?_⟩
  rintro q' ⟨relative', path', ⟨⟩, hjoins', hl', -⟩
  obtain rfl := hex.joins.unique hjoins'
  obtain rfl := hl.unique hl'
  exact hex.within

/-! ### Listings -/

/-- A listing can be made when every entry leads somewhere. -/
theorem exists_listed_iff {names : List Name} :
    (∃ listed, List.Forall₂ (Lists t path) names listed) ↔
      ∀ n ∈ names, ∃ q, Fs.Leads t (path.join [n]) q := by
  constructor
  · rintro ⟨listed, hlisted⟩
    have hboth : List.Forall₂ (fun n entry => (∃ q, Fs.Leads t (path.join [n]) q) ∧
        Lists t path n entry) names listed := by
      refine hlisted.imp fun n entry hn => ⟨?_, hn⟩
      obtain ⟨q, e, hl, -⟩ := hn
      exact ⟨q, hl⟩
    exact ((List.forall₂_and_left names listed).mp hboth).1
  · intro h
    induction names with
    | nil => exact ⟨[], .nil⟩
    | cons n names ih =>
      obtain ⟨listed, hlisted⟩ := ih fun m hm => h m (List.mem_cons_of_mem n hm)
      obtain ⟨q, hl⟩ := h n List.mem_cons_self
      obtain ⟨e, he, -⟩ := resolve_look hl.2
      exact ⟨⟨Utf8.lossy n, attrOf e⟩ :: listed, .cons ⟨q, e, hl, he, rfl⟩ hlisted⟩

/-- The entries of a listing, one for each name. -/
theorem mem_listed {names : List Name} {listed : List DirEntry} {entry : DirEntry}
    (h : List.Forall₂ (Lists t path) names listed) :
    entry ∈ listed ↔ ∃ n ∈ names, Lists t path n entry := by
  induction h with
  | nil => simp
  | @cons n entry' names listed hn hrest ih =>
    have huniq : Lists t path n entry ↔ entry = entry' := by
      constructor
      · rintro ⟨q, e, hl, he, rfl⟩
        obtain ⟨q', e', hl', he', rfl⟩ := hn
        obtain rfl := hl.unique hl'
        rw [he] at he'
        cases he'
        rfl
      · rintro rfl
        exact hn
    simp only [List.mem_cons, ih, exists_eq_or_imp, huniq]

/-- Sorting keeps the entries. -/
theorem mem_sortEntries {entries : List DirEntry} {entry : DirEntry} :
    entry ∈ sortEntries entries ↔ entry ∈ entries := List.mem_mergeSort

/-- The entries of a listing and what they are made of. -/
theorem readDir_confines_iff {entries : List DirEntry}
    (h : srv.readDir relative t = .ok entries t') :
    srv.Confines t' (.readDir relative) (.dirEntries entries) ↔
      ¬ srv.ListsOutside t' (.readDir relative) := by
  obtain ⟨⟨path, d, listed, hex, hdir, hlisted, rfl⟩, rfl⟩ := readDir_eq_ok.mp h
  have hd : Fs.Leads t' path d := ⟨hex.nul, hex.resolves⟩
  constructor
  · rintro hconf ⟨relative', path', d', hreq, hex', -, -, n, q, hn, hl, hout⟩
    cases hreq
    obtain rfl := hex.joins.unique hex'.joins
    obtain rfl := hd.unique ⟨hex'.nul, hex'.resolves⟩
    obtain ⟨e, he, -⟩ := resolve_look hl.2
    have hmem : (⟨Utf8.lossy n, attrOf e⟩ : DirEntry) ∈ sortEntries listed :=
      mem_sortEntries.mpr ((mem_listed hlisted).mpr ⟨n, mem_namesAt.mpr hn, q, e, hl, he, rfl⟩)
    have hdesc : srv.Describes t' (.readDir relative) q (.entry ⟨Utf8.lossy n, attrOf e⟩) :=
      ⟨relative, path, rfl, hex.joins, d, n, hd, hn, hl, e, he, rfl⟩
    exact hout ((hconf _ (List.mem_map_of_mem hmem)).2 q hdesc)
  · intro hno part hpart
    obtain ⟨entry, hentry, rfl⟩ := List.mem_map.mp hpart
    obtain ⟨n, hn, q, e, hl, he, rfl⟩ := (mem_listed hlisted).mp (mem_sortEntries.mp hentry)
    refine ⟨⟨q, relative, path, rfl, hex.joins, d, n, hd, mem_namesAt.mp hn, hl, e, he, rfl⟩, ?_⟩
    rintro q' ⟨relative', path', ⟨⟩, hjoins', d', n', hd', hn', hl', -⟩
    obtain rfl := hex.joins.unique hjoins'
    obtain rfl := hd.unique hd'
    by_contra hout
    -- the listing succeeded, so every entry leads somewhere
    have hall := exists_listed_iff.mp ⟨listed, hlisted⟩
    exact hno ⟨relative, path, d, rfl, hex, hdir, fun m hm => hall m (mem_namesAt.mpr hm),
      n', q', hn', hl', hout⟩

/-- Such a listing succeeds, with a response that describes an object outside. -/
theorem ListsOutside.disclosed {request : Request} (h : srv.ListsOutside t request) (os : Os) :
    ∃ response, srv.dispatch os request t = .ok response t ∧ ¬ srv.Confines t request response := by
  obtain ⟨relative, path, d, rfl, hex, hdir, hall, hout⟩ := h
  obtain ⟨listed, hlisted⟩ := exists_listed_iff.mpr fun n hn => hall n (mem_namesAt.mp hn)
  have hread : srv.readDir relative t = .ok (sortEntries listed) t :=
    readDir_eq_ok.mpr ⟨⟨path, d, listed, hex, hdir, hlisted, rfl⟩, rfl⟩
  refine ⟨_, map_eq_ok.mpr ⟨_, hread, rfl⟩, fun hconf => ?_⟩
  exact (readDir_confines_iff hread).mp hconf ⟨relative, path, d, rfl, hex, hdir, hall, hout⟩

/-! ### All requests -/

/-- **Disclosure.**  The responses to a request describe only exported objects exactly when
    it does not list a directory with an entry that leads outside. -/
theorem undisclosed_iff (srv : RpcServer) (os : Os) (t : Tree) (request : Request) :
    (∀ response t', srv.dispatch os request t = .ok response t' →
        srv.Confines t' request response) ↔ ¬ srv.ListsOutside t request := by
  by_cases hlist : ∃ relative, request = .readDir relative
  · -- a listing discloses what its entries lead to
    obtain ⟨relative, rfl⟩ := hlist
    constructor
    · intro hconf hlist
      obtain ⟨response, hrun, hnot⟩ := hlist.disclosed os
      exact hnot (hconf response t hrun)
    · intro hno response t' hrun
      obtain ⟨entries, hread, rfl⟩ := map_eq_ok.mp hrun
      obtain rfl := quiet_readDir.state_eq hread
      exact (readDir_confines_iff hread).mpr hno
  · -- every other answer is about the object that was checked
    refine iff_of_true (fun response t' hrun => ?_) fun ⟨relative, _, _, hreq, _⟩ =>
      hlist ⟨relative, hreq⟩
    cases request with
    | readDir path => exact absurd ⟨path, rfl⟩ hlist
    | stat path | «open» path =>
      obtain ⟨attr, hstat, rfl⟩ := map_eq_ok.mp hrun
      exact (statPath_reads hstat).confines rfl rfl
    | create path kind attributes size =>
      obtain ⟨attr, hcreate, rfl⟩ := map_eq_ok.mp hrun
      exact (createEntry_reads hcreate).confines rfl rfl
    | read path offset length =>
      obtain ⟨bytes, hread, rfl⟩ := map_eq_ok.mp hrun
      exact readFile_confines hread
    | write path offset data toEof =>
      obtain ⟨attr, rfl, hwrite⟩ := writeFile_reads hrun
      exact hwrite.confines rfl rfl
    | setLen path size allocation =>
      obtain ⟨attr, hset, rfl⟩ := map_eq_ok.mp hrun
      exact (setLen_reads hset).confines rfl rfl
    | setBasicInfo path update =>
      obtain ⟨attr, hset, rfl⟩ := map_eq_ok.mp hrun
      exact (setBasicInfo_reads hset).confines rfl rfl
    | canDelete path kind | removeFile path | removeDir path | rename path newPath replace
      | flush path =>
      obtain ⟨u, t1, -, hret⟩ := bind_eq_ok.mp hrun
      cases hret
      intro part hpart
      cases hpart
    | getVolumeInfo =>
      obtain ⟨info, -, rfl⟩ := map_eq_ok.mp hrun
      intro part hpart
      cases hpart

/-- In the exported `/r`, the link `a` leads to the directory `/out`. -/
def treeWithLinkOut : Tree where
  entries := [
    oldEntry [] 0 (.dir 0),
    oldEntry ["r"] 1 (.dir 0),
    oldEntry ["r", "a"] 2 (.symlink ⟨true, [.name (Utf8.encode "out")]⟩),
    oldEntry ["out"] 3 (.dir 0)]
  next := 4
  locs_nodup := by decide
  inos_nodup := by decide
  inos_lt := by decide
  closed := by decide
  root := by decide

/-- A link to a directory outside is listed with the attributes of this directory. -/
theorem linkOut_lists_outside : serverAtR.ListsOutside treeWithLinkOut (.readDir "") := by
  have hleads : Fs.Leads treeWithLinkOut ⟨["r", "a"].map Utf8.encode, false⟩
      (["out"].map Utf8.encode) := ⟨by decide, by decide⟩
  refine ⟨"", ⟨["r"].map Utf8.encode, true⟩, ["r"].map Utf8.encode, rfl,
    ⟨⟨[], by decide, by decide⟩, by decide, by decide, by decide⟩, by decide, fun n hn => ?_,
    Utf8.encode "a", _, by decide, hleads, by decide⟩
  have hmem := mem_namesAt.mpr hn
  rw [show namesAt treeWithLinkOut (["r"].map Utf8.encode) = [Utf8.encode "a"] by decide,
    List.mem_singleton] at hmem
  subst hmem
  exact ⟨_, hleads⟩

/-- `Stat "a"` is refused, but `ReadDir ""` reports the attributes of `/out`. -/
theorem linkOut_disclosed :
    outcome (serverAtR.dispatch (.atTime ⟨1, 0⟩) (.stat "a") treeWithLinkOut)
        = .error ⟨.permissionDenied, "path escapes the exported root"⟩ ∧
      ¬ ∀ response t', serverAtR.dispatch (.atTime ⟨1, 0⟩) (.readDir "") treeWithLinkOut
          = .ok response t' → serverAtR.Confines t' (.readDir "") response := by
  refine ⟨by decide, fun hconf => ?_⟩
  obtain ⟨response, hrun, hnot⟩ := linkOut_lists_outside.disclosed (.atTime ⟨1, 0⟩)
  exact hnot (hconf response _ hrun)

end RpcServer

end Netfilum
