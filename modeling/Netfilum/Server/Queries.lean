import Netfilum.Server.Commands
import Netfilum.Server.Deletion

namespace Netfilum

open Posix Program Rust

/-!
# Requests that only ask

`Stat`, `Open`, `ReadDir`, `Read`, `CanDelete`, `Flush` and `GetVolumeInfo` answer on a plain
tree what their commands are answered on the tree of files and directories, and change nothing.

* `does_stat`, `does_readDir`, `does_read`, `does_canDelete`, `does_flush`,
  `does_getVolumeInfo` — one lemma for each.
-/

variable {srv : RpcServer} {os : Os} {t t' : Tree} {relative : String} {path : PathBuf}
  {q d v : Loc} {x : Name} {rel : List Name}

namespace RpcServer

/-- Where the abstract tree has no node the server finds nothing. -/
theorem Plain.not_existing (h : srv.Plain t)
    (hno : ∀ rel, namesOf relative = some rel → h.view.node rel = none) :
    ¬ srv.Existing t relative path q := fun hex => by
  obtain ⟨rel, hrel, -, -, hnode⟩ := h.existing_names.mp hex
  exact hnode (hno rel hrel)

/-- What is found lies where the names of the path say. -/
theorem Plain.existing_unique (h : srv.Plain t) (hrel : namesOf relative = some rel)
    (hex : srv.Existing t relative path q) :
    path = srv.root.join rel ∧ q = srv.rootReal ++ rel ∧ h.view.node rel ≠ none := by
  obtain ⟨rel', hrel', hpath, hq, hnode⟩ := h.existing_names.mp hex
  rw [hrel] at hrel'
  cases hrel'
  exact ⟨hpath, hq, hnode⟩

/-- A request on an existing path, which fails on every other, does what its command says if it
    does so where the abstract tree has a node. -/
theorem does_at (h : srv.Plain t) {limit : Nat} {x : ServerM Response}
    {f : List Name → FileTree.Command Name UInt8}
    (hneeds : (∃ path q, srv.Existing t relative path q) ∨ ∃ e, x t = .error e t)
    (hnone : ∀ rel, h.view.node rel = none → h.view.run limit (f rel) = (none, h.view))
    (hsome : ∀ rel n, namesOf relative = some rel → h.view.node rel = some n →
      Does h limit (f rel) (x t)) : Does h limit (onPath relative f) (x t) := by
  -- without an existing path the request is refused
  have hrefused : (∀ rel, namesOf relative = some rel → h.view.node rel = none) →
      ∀ c : FileTree.Command Name UInt8, h.view.run limit c = (none, h.view) →
        Does h limit c (x t) := by
    intro hno c hrun
    obtain ⟨e, herr⟩ := hneeds.resolve_left fun ⟨_, _, hex⟩ => h.not_existing hno hex
    exact does_refused h herr hrun
  cases hrel : namesOf relative with
  | none =>
    rw [onPath_of_none hrel]
    exact hrefused (fun rel hr => by rw [hrel] at hr; cases hr) _ rfl
  | some rel =>
    rw [onPath_of_some hrel]
    cases hnode : h.view.node rel with
    | some n => exact hsome rel n hrel hnode
    | none =>
      refine hrefused (fun rel' hr => ?_) _ (hnone rel hnode)
      rw [hrel] at hr
      cases hr
      exact hnode

/-- The same for a request that is quiet, and succeeds on existing paths only. -/
theorem does_onPath (h : srv.Plain t) {limit : Nat} {x : ServerM Response} (hquiet : Quiet x)
    {f : List Name → FileTree.Command Name UInt8}
    (hneeds : ∀ response s, x t = .ok response s → ∃ path q, srv.Existing t relative path q)
    (hnone : ∀ rel, h.view.node rel = none → h.view.run limit (f rel) = (none, h.view))
    (hsome : ∀ rel n, namesOf relative = some rel → h.view.node rel = some n →
      Does h limit (f rel) (x t)) : Does h limit (onPath relative f) (x t) := by
  refine does_at h ?_ hnone hsome
  have hsame := hquiet t
  cases hx : x t with
  | ok response s => exact .inl (hneeds response s hx)
  | error e s =>
    rw [hx, final_error] at hsame
    exact .inr ⟨e, by rw [hsame]⟩

/-- `stat_path` looks at what its command looks at. -/
theorem does_stat (h : srv.Plain t) (limit : Nat) :
    Does h limit (onPath relative .look)
      ((.attr <$> srv.statPath relative : ServerM Response) t) := by
  refine does_onPath h (.map quiet_statPath) (fun response s hok => ?_) (fun rel hnode => ?_)
    fun rel n hrel hnode => ?_
  · obtain ⟨attr, hstat, -⟩ := map_eq_ok.mp hok
    obtain ⟨⟨path, q, e, hex, -⟩, -⟩ := statPath_eq_ok.mp hstat
    exact ⟨path, q, hex⟩
  · simp only [FileTree.run, hnode, Option.map_none]
  · obtain ⟨e, he, -, hdepicts⟩ := h.entry_of_node hnode
    have hex := h.existing_of_node hrel (by rw [hnode]; simp)
    have hstat : srv.statPath relative t = .ok (attrOf e) t :=
      statPath_eq_ok.mpr ⟨⟨_, _, e, hex, he, rfl⟩, rfl⟩
    exact does_answered h (map_eq_ok.mpr ⟨_, hstat, rfl⟩)
      (by simp only [FileTree.run, hnode, Option.map_some]) (.node hdepicts)

/-- Every name of a directory is listed with the attributes of its node. -/
theorem Plain.lists_iff (h : srv.Plain t) {n : Name} {entry : DirEntry} :
    Lists t (srv.root.join rel) n entry ↔ ∃ e, t.look (srv.rootReal ++ (rel ++ [n])) = some e ∧
      entry = ⟨Utf8.lossy n, attrOf e⟩ := by
  unfold Lists
  rw [PathBuf.join_join]
  constructor
  · rintro ⟨q, e, hl, he, rfl⟩
    obtain ⟨rfl, -⟩ := h.leads_iff.mp hl
    exact ⟨e, he, rfl⟩
  · rintro ⟨e, he, rfl⟩
    exact ⟨_, e, h.leads_iff.mpr ⟨rfl, by rw [Tree.shape_of_look he]; simp⟩, he, rfl⟩

/-- A directory of a plain tree can be listed, and its listing enumerates its nodes. -/
theorem Plain.enumerates (h : srv.Plain t) (rel : List Name) :
    ∃ listed, List.Forall₂ (Lists t (srv.root.join rel)) (namesAt t (srv.rootReal ++ rel)) listed ∧
      Enumerates (sortEntries listed) fun n => h.view.node (rel ++ [n]) := by
  obtain ⟨listed, hall⟩ := exists_listed_iff.mpr fun n (hn : n ∈ namesAt t (srv.rootReal ++ rel)) =>
    have hlead : Fs.Leads t ((srv.root.join rel).join [n]) (srv.rootReal ++ (rel ++ [n])) := by
      rw [PathBuf.join_join, h.leads_iff, ← List.append_assoc, ne_eq, Tree.shape_eq_none_iff]
      exact ⟨rfl, mem_namesAt.mp hn⟩
    ⟨_, hlead⟩
  refine ⟨listed, hall, sortEntries_pairwise listed, ?_⟩
  obtain ⟨made, hsnd, hfst, hmade⟩ := exists_made hall
  refine ⟨made, hsnd, hfst.nodup_iff.mpr (namesAt_nodup t _), fun n => ?_, fun i hi => ?_⟩
  · rw [hfst.mem_iff, mem_namesAt, ne_eq, ne_eq, h.node_eq_none_iff, ← Tree.shape_eq_none_iff,
      List.append_assoc]
  · obtain ⟨e, he, heq⟩ := h.lists_iff.mp (hmade i hi)
    have hnode : h.view.node (rel ++ [i.1]) ≠ none := by
      rw [ne_eq, h.node_eq_none_iff, Tree.shape_eq_none_iff, he]
      simp
    obtain ⟨n, hn⟩ := Option.ne_none_iff_exists'.mp hnode
    obtain ⟨e', he', -, hdepicts⟩ := h.entry_of_node hn
    rw [he] at he'
    cases he'
    rw [heq]
    exact ⟨rfl, n, hn, hdepicts⟩

/-- `read_dir` lists what its command lists. -/
theorem does_readDir (h : srv.Plain t) (limit : Nat) : Does h limit (onPath relative .list)
    ((.dirEntries <$> srv.readDir relative : ServerM Response) t) := by
  refine does_onPath h (.map quiet_readDir) (fun response s hok => ?_) (fun rel hnode => ?_)
    fun rel n hrel hnode => ?_
  · obtain ⟨entries, hread, -⟩ := map_eq_ok.mp hok
    obtain ⟨⟨path, d, listed, hex, -⟩, -⟩ := readDir_eq_ok.mp hread
    exact ⟨path, d, hex⟩
  · simp only [FileTree.run, hnode, reduceCtorEq, if_false]
  · have hex := h.existing_of_node hrel (by rw [hnode]; simp)
    by_cases hdir : h.view.node rel = some .dir
    · obtain ⟨listed, hall, henum⟩ := h.enumerates rel
      have hread : srv.readDir relative t = .ok (sortEntries listed) t :=
        readDir_eq_ok.mpr ⟨⟨_, _, listed, hex, h.node_eq_dir_iff.mp hdir, hall, rfl⟩, rfl⟩
      exact does_answered h (map_eq_ok.mpr ⟨_, hread, rfl⟩)
        (by simp only [FileTree.run, if_pos hdir]) (.children henum)
    · refine does_unanswered h ((Quiet.map quiet_readDir) t)
        (by simp only [FileTree.run, if_neg hdir]) fun response s hok => hdir ?_
      obtain ⟨entries, hread, -⟩ := map_eq_ok.mp hok
      obtain ⟨⟨path, d, listed, hex', hs, -⟩, -⟩ := readDir_eq_ok.mp hread
      rw [(h.existing_unique hrel hex').2.1] at hs
      exact h.node_eq_dir_iff.mpr hs

/-- A file of the abstract tree, and its contents on the server. -/
theorem Plain.contents_iff (h : srv.Plain t) {data : List UInt8} :
    h.view.contents rel = some data ↔ Fs.dataAt t (srv.rootReal ++ rel) = some data := by
  rw [FileTree.contents_eq_some, h.node_eq_file_iff, dataAt_eq_some_iff]
  unfold bodyAt
  rw [Option.map_eq_some_iff]

/-- Reading a file within the limit. -/
theorem readFile_of_le {offset : UInt64} {length : UInt32} {content : List UInt8}
    (hex : srv.Existing t relative path q) (hd : Fs.dataAt t q = some content)
    (hle : offset.toNat ≤ os.maxBytes) :
    srv.readFile os relative offset length t
      = .ok ((content.drop offset.toNat).take length.toNat) t := by
  have hopen : io (Fs.openRead path) t = .ok ⟨q, 0⟩ t :=
    io_eq_ok.mpr (Fs.openRead_eq_ok.mpr ⟨hex.nul, hex.resolves, rfl, rfl⟩)
  have hseek : io (Fs.seekStart os ⟨q, 0⟩ offset.toNat) t = .ok ⟨q, offset.toNat⟩ t :=
    io_eq_ok.mpr (by rw [Fs.seekStart, if_pos hle]; rfl)
  unfold readFile
  rw [bind_of_ok (resolveExisting_eq_ok.mpr ⟨⟨q, hex⟩, rfl⟩), bind_of_ok hopen, bind_of_ok hseek]
  exact io_eq_ok.mpr (observe_eq_ok.mpr ⟨by rw [hd], rfl⟩)

/-- Nothing is read from behind the limit. -/
theorem readFile_le {offset : UInt64} {length : UInt32} {bytes : List UInt8}
    (hok : srv.readFile os relative offset length t = .ok bytes t') :
    offset.toNat ≤ os.maxBytes := by
  obtain ⟨path, t1, hpath, h1⟩ := bind_eq_ok.mp hok
  obtain ⟨f, t2, hopen, h2⟩ := bind_eq_ok.mp h1
  obtain ⟨f', t3, hseek, h3⟩ := bind_eq_ok.mp h2
  have hs := io_eq_ok.mp hseek
  unfold Fs.seekStart at hs
  split at hs
  · assumption
  · cases hs

/-- `read_file` reads what its command reads. -/
theorem does_read (h : srv.Plain t) (offset : UInt64) (length : UInt32) :
    Does h os.maxBytes (onPath relative fun p => .read p offset.toNat length.toNat)
      ((.data <$> srv.readFile os relative offset length : ServerM Response) t) := by
  have hneeds : ∀ response s, (.data <$> srv.readFile os relative offset length :
      ServerM Response) t = .ok response s → ∃ path q content, srv.Existing t relative path q ∧
        Fs.dataAt t q = some content ∧ offset.toNat ≤ os.maxBytes := fun response s hok => by
    obtain ⟨bytes, hread, -⟩ := map_eq_ok.mp hok
    obtain ⟨path, q, content, hex, hd, -, rfl⟩ := readFile_eq_ok hread
    exact ⟨path, q, content, hex, hd, readFile_le hread⟩
  refine does_onPath h (.map (quiet_readFile offset length)) (fun response s hok => ?_)
    (fun rel hnode => ?_) fun rel n hrel hnode => ?_
  · obtain ⟨path, q, -, hex, -⟩ := hneeds response s hok
    exact ⟨path, q, hex⟩
  · simp only [FileTree.run, FileTree.contents, hnode, Option.map_none, ite_self]
  · have hex := h.existing_of_node hrel (by rw [hnode]; simp)
    by_cases hle : offset.toNat ≤ os.maxBytes
    · cases hdata : h.view.contents rel with
      | some content =>
        have hread : srv.readFile os relative offset length t = .ok _ t :=
          readFile_of_le hex (h.contents_iff.mp hdata) hle
        exact does_answered h (map_eq_ok.mpr ⟨_, hread, rfl⟩)
          (by simp only [FileTree.run, if_pos hle, hdata, Option.map_some]) (.bytes _)
      | none =>
        refine does_unanswered h ((Quiet.map (quiet_readFile offset length)) t)
          (by simp only [FileTree.run, hdata, Option.map_none, ite_self]) fun response s hok => ?_
        obtain ⟨path, q, content, hex', hd, -⟩ := hneeds response s hok
        rw [(h.existing_unique hrel hex').2.1] at hd
        rw [h.contents_iff.mpr hd] at hdata
        cases hdata
    · refine does_unanswered h ((Quiet.map (quiet_readFile offset length)) t)
        (by simp only [FileTree.run, if_neg hle]) fun response s hok => hle ?_
      obtain ⟨path, q, content, -, -, hle⟩ := hneeds response s hok
      exact hle

/-- A directory is empty where the file service says so. -/
theorem Plain.empty_iff (h : srv.Plain t) :
    h.view.Empty rel ↔ t.children (srv.rootReal ++ rel) = [] := by
  rw [Tree.children_eq_nil_iff]
  exact forall_congr' fun n => by
    rw [h.node_eq_none_iff, Tree.shape_eq_none_iff, List.append_assoc]

/-- A regular file stands where the file service has one. -/
theorem Plain.file_iff (h : srv.Plain t) :
    (∃ data, h.view.node rel = some (.file data)) ↔ t.shape (srv.rootReal ++ rel) = some .file := by
  constructor
  · rintro ⟨data, hnode⟩
    exact shape_of_dataAt (h.contents_iff.mp (FileTree.contents_eq_some.mpr hnode))
  · intro hs
    obtain ⟨data, hd⟩ := dataAt_of_shape hs
    exact ⟨data, FileTree.contents_eq_some.mp (h.contents_iff.mpr hd)⟩

/-- What may be removed from the abstract tree may be deleted on the server. -/
theorem Plain.removable_iff (h : srv.Plain t) (kind : EntryKind) :
    h.view.Removable rel kind.kind ↔ Deletable t (srv.rootReal ++ rel) kind := by
  cases kind with
  | file => exact h.file_iff
  | directory => exact and_congr h.node_eq_dir_iff h.empty_iff

/-- `can_delete` succeeds where its command does. -/
theorem does_canDelete (h : srv.Plain t) (limit : Nat) (kind : EntryKind) :
    Does h limit (onPath relative fun p => .mayRemove p kind.kind)
      ((do srv.canDelete relative kind; return .empty : ServerM Response) t) := by
  have hquiet : Quiet (do srv.canDelete relative kind; return .empty : ServerM Response) :=
    .bind (quiet_canDelete kind) fun _ => .pure _
  have hneeds : ∀ response s, (do srv.canDelete relative kind; return .empty :
      ServerM Response) t = .ok response s →
        ∃ path q, srv.Existing t relative path q ∧ Deletable t q kind := fun response s hok => by
    obtain ⟨u, t1, hcan, -⟩ := bind_eq_ok.mp hok
    exact (canDelete_eq_ok.mp hcan).1
  refine does_onPath h hquiet (fun response s hok => ?_) (fun rel hnode => ?_)
    fun rel n hrel hnode => ?_
  · obtain ⟨path, q, hex, -⟩ := hneeds response s hok
    exact ⟨path, q, hex⟩
  · have hno : ¬ h.view.Removable rel kind.kind := fun hr => by
      cases kind with
      | file =>
        obtain ⟨data, hfile⟩ := hr
        rw [hnode] at hfile
        cases hfile
      | directory =>
        have hdir := hr.1
        rw [hnode] at hdir
        cases hdir
    simp only [FileTree.run, if_neg hno]
  · have hex := h.existing_of_node hrel (by rw [hnode]; simp)
    by_cases hr : h.view.Removable rel kind.kind
    · have hcan : srv.canDelete relative kind t = .ok () t :=
        canDelete_eq_ok.mpr ⟨⟨_, _, hex, (h.removable_iff kind).mp hr⟩, rfl⟩
      exact does_answered h (bind_of_ok hcan) (by simp only [FileTree.run, if_pos hr]) .done
    · refine does_unanswered h (hquiet t) (by simp only [FileTree.run, if_neg hr])
        fun response s hok => hr ?_
      obtain ⟨path, q, hex', hdel⟩ := hneeds response s hok
      rw [(h.existing_unique hrel hex').2.1] at hdel
      exact (h.removable_iff kind).mpr hdel

/-- An existing path can be flushed. -/
theorem flush_eq_ok {u : Unit} : srv.flush (some relative) t = .ok u t' ↔
    (∃ path q, srv.Existing t relative path q) ∧ t' = t := by
  constructor
  · intro h
    obtain ⟨path, t1, hpath, -⟩ := bind_eq_ok.mp h
    exact ⟨⟨path, (resolveExisting_eq_ok.mp hpath).1⟩, (quiet_flush (some relative)).state_eq h⟩
  · rintro ⟨⟨path, q, hex⟩, rfl⟩
    obtain ⟨isDir, hdir, hdir_iff⟩ := Fs.isDir_ok (t := t') (p := path)
    refine bind_eq_ok.mpr ⟨path, t', resolveExisting_eq_ok.mpr ⟨⟨q, hex⟩, rfl⟩,
      bind_eq_ok.mpr ⟨isDir, t', io_eq_ok.mpr hdir, ?_⟩⟩
    split
    · rfl
    · rename_i hnot
      -- what is no directory is a file, and can be opened
      have hfile : t'.shape q = some .file := (shape_of_resolve hex.resolves).resolve_right
        fun hs => hnot (hdir_iff.mpr ⟨q, ⟨hex.nul, hex.resolves⟩, hs⟩)
      exact bind_eq_ok.mpr ⟨⟨q, 0⟩, t', io_eq_ok.mpr (Fs.openWrite_eq_ok.mpr
        ⟨hex.nul, hex.resolves, hfile, rfl, rfl⟩), rfl⟩

/-- `flush` succeeds where its command does. -/
theorem does_flush (h : srv.Plain t) (limit : Nat) :
    Does h limit (onPath relative .check)
      ((do srv.flush (some relative); return .empty : ServerM Response) t) := by
  refine does_onPath h (.bind (quiet_flush _) fun _ => .pure _) (fun response s hok => ?_)
    (fun rel hnode => ?_) fun rel n hrel hnode => ?_
  · obtain ⟨u, t1, hflush, -⟩ := bind_eq_ok.mp hok
    exact (flush_eq_ok.mp hflush).1
  · simp only [FileTree.run, hnode, Option.map_none]
  · have hex := h.existing_of_node hrel (by rw [hnode]; simp)
    have hflush : srv.flush (some relative) t = .ok () t := flush_eq_ok.mpr ⟨⟨_, _, hex⟩, rfl⟩
    exact does_answered h (bind_of_ok hflush)
      (by simp only [FileTree.run, hnode, Option.map_some]) .done

/-- A flush of everything does nothing. -/
theorem does_flushAll (h : srv.Plain t) (limit : Nat) :
    Does h limit (.check []) ((do srv.flush none; return .empty : ServerM Response) t) := by
  have hflush : srv.flush none t = .ok () t := rfl
  refine does_answered h (bind_of_ok hflush) ?_ .done
  simp only [FileTree.run, h.view.root, Option.map_some]

/-- The capacity is no question about the tree. -/
theorem does_getVolumeInfo (h : srv.Plain t) (limit : Nat) :
    Does h limit .report ((.volumeInfo <$> srv.volumeInfo os : ServerM Response) t) := by
  have hquiet : Quiet (.volumeInfo <$> srv.volumeInfo os : ServerM Response) :=
    .map quiet_volumeInfo
  refine ⟨?_, ?_⟩
  · cases hvol : (.volumeInfo <$> srv.volumeInfo os : ServerM Response) t with
    | error e s => exact .inr ⟨trivial, e, rfl⟩
    | ok response s =>
      obtain ⟨info, -, rfl⟩ := map_eq_ok.mp hvol
      exact .inl (.volume info)
  · rw [hquiet t]
    exact ⟨h, rfl⟩

end RpcServer

end Netfilum
