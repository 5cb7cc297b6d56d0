import Netfilum.Server.BasicInfo
import Netfilum.Server.Queries

namespace Netfilum

open Posix Program Rust

/-!
# Requests that change something

`Create`, `Write`, `SetLen`, `SetBasicInfo`, `RemoveFile` and `RemoveDir` do to a plain tree what
their commands do to the tree of files and directories.

* `Plain.of_stands` — a tree that shows everywhere what an abstract tree says is plain, and that
  tree is its view.
* `does_create`, `does_write`, `does_setLen`, `does_setBasicInfo`, `does_removeFile`,
  `does_removeDir` — one lemma for each.
-/

variable {srv : RpcServer} {os : Os} {t t' : Tree} {relative : String} {path : PathBuf}
  {q d v : Loc} {x : Name} {rel : List Name}

/-- The body is that of a node; a link stands for none. -/
def Stands (b : Option Body) (n : Option (FileTree.Node UInt8)) : Prop :=
  b.bind nodeOf = n ∧ ∀ target, b ≠ some (.symlink target)

/-- Where nothing stands the file service has no node. -/
theorem Stands.none_iff {b : Option Body} {n : Option (FileTree.Node UInt8)} (h : Stands b n) :
    n = none ↔ b = none := by
  obtain ⟨rfl, hlink⟩ := h
  cases b with
  | none => simp
  | some b =>
    cases b with
    | symlink target => exact absurd rfl (hlink target)
    | file data => simp [nodeOf]
    | dir size => simp [nodeOf]

/-- The body at a place depends on the entry there. -/
theorem bodyAt_congr (h : t'.look q = t.look q) : bodyAt t' q = bodyAt t q := by
  unfold bodyAt
  rw [h]

/-- Stamping a directory leaves every body alone. -/
theorem bodyAt_touch (os : Os) (d : Loc) : bodyAt (t.touch os d) q = bodyAt t q := by
  by_cases hq : q = d
  · rw [hq, bodyAt, look_touch_self, Option.map_map]
    rfl
  · exact bodyAt_congr (Tree.look_touch_of_ne hq)

/-- A file has the data that are read from it. -/
theorem bodyAt_file {content : List UInt8} :
    bodyAt t q = some (.file content) ↔ Fs.dataAt t q = some content := by
  rw [dataAt_eq_some_iff, bodyAt, Option.map_eq_some_iff]

namespace RpcServer

/-- The node of the file service is that of the tree. -/
theorem Plain.stands (h : srv.Plain t) (rel : List Name) :
    Stands (bodyAt t (srv.rootReal ++ rel)) (h.view.node rel) := by
  refine ⟨rfl, fun target hb => h.noLinks rel target ?_⟩
  rw [shape_eq_map_bodyAt, hb]
  rfl

/-- **The tree after a change**, if it shows everywhere what an abstract tree says. -/
theorem Plain.of_stands (h : srv.Plain t) (hexp : srv.Exported t') {T : FileTree Name UInt8}
    (hnode : ∀ rel, Stands (bodyAt t' (srv.rootReal ++ rel)) (T.node rel))
    (hnul : ∀ rel, T.node rel ≠ none → ∀ n ∈ rel, n.contains 0 = false) :
    ∃ h' : srv.Plain t', h'.view = T := by
  have hplain : srv.Plain t' := h.of_shapes hexp fun rel s hs => by
    rw [shape_eq_map_bodyAt, Option.map_eq_some_iff] at hs
    obtain ⟨b, hb, rfl⟩ := hs
    refine ⟨fun target hlink => ?_, hnul rel fun hn => ?_⟩
    · cases b with
      | symlink target' => exact (hnode rel).2 target' hb
      | file data => cases hlink
      | dir size => cases hlink
    · rw [(hnode rel).none_iff.mp hn] at hb
      cases hb
  exact ⟨hplain, FileTree.ext (funext fun rel => (hnode rel).1)⟩

/-- The names of a node that was there before can be passed on. -/
theorem Plain.nul_of_node (h : srv.Plain t) (hn : h.view.node rel ≠ none) :
    ∀ n ∈ rel, n.contains 0 = false :=
  h.noNul rel fun hs => hn (h.node_eq_none_iff.mpr hs)

/-- Different relative paths lie at different places. -/
theorem append_rel_inj {rel rel' : List Name} :
    srv.rootReal ++ rel = srv.rootReal ++ rel' ↔ rel = rel' :=
  List.append_right_inj _

/-- A request that starts with an existing path, or fails and changes nothing. -/
theorem existing_or_error {α : Type} (t : Tree) (f : PathBuf → ServerM α) :
    (∃ path q, srv.Existing t relative path q) ∨
      ∃ e, (srv.resolveExisting relative >>= f) t = .error e t := by
  have hsame : final (srv.resolveExisting relative t) = t := quiet_resolveExisting t
  cases hx : srv.resolveExisting relative t with
  | ok path s =>
    obtain ⟨⟨q, hex⟩, -⟩ := resolveExisting_eq_ok.mp hx
    exact .inl ⟨path, q, hex⟩
  | error e s =>
    rw [hx, final_error] at hsame
    subst hsame
    exact .inr ⟨e, bind_of_error hx⟩

/-- A failure is not mapped. -/
theorem map_of_error {α β : Type} {x : ServerM α} {f : α → β} {e : RpcError}
    (h : x t = .error e t') : (f <$> x) t = .error e t' := by
  rw [map_apply, h]

/-- A mapped result leaves the same tree. -/
theorem final_map {α β : Type} (x : ServerM α) (f : α → β) : final ((f <$> x) t) = final (x t) := by
  rw [map_apply]
  cases x t <;> rfl

/-! ### Contents -/

/-- New contents for one file of the tree. -/
theorem Plain.put_file (h : srv.Plain t) {old new : List UInt8}
    (hold : h.view.node rel = some (.file old)) (hshape : t'.shape = t.shape)
    (hdata : Fs.dataAt t' (srv.rootReal ++ rel) = some new)
    (hsame : SameBut (srv.rootReal ++ rel) t t') :
    ∃ h' : srv.Plain t', h'.view = h.view.put rel (.file new) := by
  have hput := FileTree.node_put_file hold new
  refine h.of_stands ⟨⟨h.exported.1.1, ?_⟩, ?_⟩ (fun r => ?_) fun r hr => ?_
  · rw [resolve_congr hshape, h.exported.1.2]
  · rw [hshape, h.exported.2]
  · by_cases hrel : r = rel
    · rw [hrel, hput, bodyAt_file.mpr hdata]
      exact ⟨rfl, fun target hlink => by cases hlink⟩
    · rw [FileTree.node_put_of_ne hrel,
        bodyAt_congr (hsame _ fun heq => hrel (append_rel_inj.mp heq))]
      exact h.stands r
  · by_cases hrel : r = rel
    · rw [hrel]
      exact h.nul_of_node (by rw [hold]; simp)
    · rw [FileTree.node_put_of_ne hrel] at hr
      exact h.nul_of_node hr

/-- A request behind an existing path. -/
theorem Existing.bind {α : Type} (hex : srv.Existing t relative path q)
    (f : PathBuf → ServerM α) : (srv.resolveExisting relative >>= f) t = f path t :=
  bind_of_ok (resolveExisting_eq_ok.mpr ⟨⟨q, hex⟩, rfl⟩)

/-- A regular file that is found is opened for writing. -/
theorem Existing.openWrite (hex : srv.Existing t relative path q)
    (hfile : t.shape q = some .file) : io (Fs.openWrite path) t = .ok ⟨q, 0⟩ t :=
  io_eq_ok.mpr (Fs.openWrite_eq_ok.mpr ⟨hex.nul, hex.resolves, hfile, rfl, rfl⟩)

/-- Only a file is opened for writing. -/
theorem Existing.openWrite_error (hex : srv.Existing t relative path q)
    (hfile : t.shape q ≠ some .file) : ∃ e, io (Fs.openWrite path) t = .error e t := by
  have hquiet : Quiet (io (Fs.openWrite path)) := .mapError (.observe _)
  have hsame := hquiet t
  cases hx : io (Fs.openWrite path) t with
  | ok f s =>
    obtain ⟨-, hres, hs, -⟩ := Fs.openWrite_eq_ok.mp (io_eq_ok.mp hx)
    rw [hex.resolves] at hres
    cases hres
    exact absurd hs hfile
  | error e s =>
    rw [hx, final_error] at hsame
    exact ⟨e, by rw [hsame]⟩

/-- What is found is what a request on this path is about. -/
theorem Existing.about (hex : srv.Existing t relative path q) : srv.About t relative q :=
  fun _ _ hex' => (hex'.unique hex).2

/-- The position of a write is the one that the command names. -/
theorem writePos_eq (content : List UInt8) (offset : UInt64) (toEof : Bool) :
    writePos content offset toEof = (offsetOf offset toEof).getD content.length := by
  cases toEof <;> rfl

/-- The contents after a write are those that the command stores. -/
theorem written_eq (os : Os) (content : List UInt8) (offset : UInt64) (data : List UInt8)
    (toEof : Bool) : written os content offset data toEof
      = FileTree.stored os.maxBytes content (offsetOf offset toEof) data := by
  cases toEof <;> rfl

/-- A write that fits is carried out. -/
theorem writeFile_of_accepts {content data : List UInt8} {offset : UInt64} {toEof : Bool}
    (hex : srv.Existing t relative path q) (hd : Fs.dataAt t q = some content)
    (hfits : FileTree.Accepts os.maxBytes content (offsetOf offset toEof) data) :
    ∃ r t', srv.writeFile os relative offset data toEof t = .ok r t' := by
  have hseek : seekFor os ⟨q, 0⟩ offset toEof t = .ok ⟨q, writePos content offset toEof⟩ t := by
    refine (seekFor_cases os offset toEof hd).resolve_right fun ⟨e, herr, hpast⟩ => ?_
    unfold seekFor at herr
    cases toEof with
    | true =>
      have hend : io (Fs.seekEnd ⟨q, 0⟩) t = .ok ⟨q, content.length⟩ t :=
        io_eq_ok.mpr (observe_eq_ok.mpr ⟨by rw [hd], rfl⟩)
      rw [if_pos rfl, hend] at herr
      cases herr
    | false => exact Nat.not_lt.mpr (hfits.1 offset.toNat rfl) hpast
  obtain ⟨t1, hwrite⟩ : ∃ t1,
      Fs.writeAll os ⟨q, writePos content offset toEof⟩ data t = .ok () t1 := by
    unfold Fs.writeAll
    rw [hd]
    by_cases hnil : data = []
    · exact ⟨t, if_pos hnil⟩
    · have hle := hfits.2 hnil
      rw [← writePos_eq] at hle
      exact ⟨_, (if_neg hnil).trans (if_pos hle)⟩
  -- the path leads where it led
  have hshape : t1.shape = t.shape := (Fs.still_writeAll _ _).shape_eq hwrite
  have hres : resolve t1 path = .ok q := by rw [resolve_congr hshape, hex.resolves]
  obtain ⟨e, he, -⟩ := resolve_look hres
  have hattr : attrForPath path t1 = .ok (attrOf e) t1 :=
    attrForPath_eq_ok.mpr ⟨⟨q, e, ⟨hex.nul, hres⟩, he, rfl⟩, rfl⟩
  refine ⟨.writeResult (UInt32.ofNat data.length) (attrOf e), t1, ?_⟩
  unfold writeFile
  rw [hex.bind, bind_of_ok (hex.openWrite (shape_of_dataAt hd)), bind_of_ok hseek,
    bind_of_ok (io_eq_ok.mpr hwrite)]
  exact bind_eq_ok.mpr ⟨(), t1, rfl, bind_eq_ok.mpr ⟨_, t1, hattr, rfl⟩⟩

/-- A write that is carried out fits. -/
theorem accepts_of_writeFile {content data : List UInt8} {offset : UInt64} {toEof : Bool}
    {r : Response} (hex : srv.Existing t relative path q) (hd : Fs.dataAt t q = some content)
    (h : srv.writeFile os relative offset data toEof t = .ok r t') :
    FileTree.Accepts os.maxBytes content (offsetOf offset toEof) data := by
  obtain ⟨path', q', content', attr, hex', hd', -, hfits, -⟩ := writeFile_eq_ok h
  obtain ⟨rfl, rfl⟩ := hex.unique hex'
  rw [hd] at hd'
  cases hd'
  refine ⟨fun pos hpos => ?_, fun hne => by rw [← writePos_eq]; exact hfits hne⟩
  -- a seek past the limit would have failed
  by_contra hpast
  cases toEof with
  | true => cases hpos
  | false =>
    cases hpos
    unfold writeFile at h
    rw [hex.bind, bind_of_ok (hex.openWrite (shape_of_dataAt hd))] at h
    obtain ⟨f, t1, hseek, -⟩ := bind_eq_ok.mp h
    have hseek' : Fs.seekStart os ⟨q, 0⟩ offset.toNat t = .ok f t1 := io_eq_ok.mp hseek
    rw [Fs.seekStart, if_neg hpast] at hseek'
    cases hseek'

/-- `write_file` stores what its command stores. -/
theorem does_write (h : srv.Plain t) (os : Os) (offset : UInt64) (data : List UInt8)
    (toEof : Bool) : Does h os.maxBytes
      (onPath relative fun p => .write p (offsetOf offset toEof) data)
      (srv.writeFile os relative offset data toEof t) := by
  refine does_at h (existing_or_error t _) (fun rel hnode => ?_) fun rel n hrel hnode => ?_
  · simp only [FileTree.run, FileTree.contents, hnode]
  have hex := h.existing_of_node hrel (by rw [hnode]; simp)
  cases hcontent : h.view.contents rel with
  | none =>
    -- a directory is not written to
    have hfile : t.shape (srv.rootReal ++ rel) ≠ some .file := fun hs => by
      obtain ⟨content, hd⟩ := dataAt_of_shape hs
      rw [h.contents_iff.mpr hd] at hcontent
      cases hcontent
    obtain ⟨e, herr⟩ := hex.openWrite_error hfile
    have hfails : srv.writeFile os relative offset data toEof t = .error e t := by
      unfold writeFile
      rw [hex.bind]
      exact bind_of_error herr
    exact does_refused h hfails (by simp only [FileTree.run, hcontent])
  | some content =>
    have hd := h.contents_iff.mp hcontent
    have hafter : Fs.dataAt (final (srv.writeFile os relative offset data toEof t)) _
        = some (written os content offset data toEof) := dataAt_writeFile ⟨_, hex⟩ hd
    rw [written_eq] at hafter
    have hshape : (final (srv.writeFile os relative offset data toEof t)).shape = t.shape :=
      Tree.shape_congr (still_writeFile offset data toEof t)
    have htree := h.put_file (FileTree.contents_eq_some.mp hcontent) hshape hafter
      (sameBut_writeFile hex.about offset data toEof)
    cases hx : srv.writeFile os relative offset data toEof t with
    | ok r t' =>
      rw [hx, final_ok] at hafter htree
      have hfits := accepts_of_writeFile hex hd hx
      obtain ⟨path, q, content', attr, hex', -, hholds, -, -, rfl⟩ := writeFile_eq_ok hx
      obtain ⟨rfl, rfl⟩ := hex.unique hex'
      obtain ⟨e, he, hbody, rfl⟩ := hholds.entry
      obtain ⟨e', he', hbody'⟩ := dataAt_eq_some_iff.mp hafter
      rw [he] at he'
      cases he'
      rw [← hx]
      exact does_ok h hx (FileTree.run_write_fits hcontent hfits)
        (.written _ (depicts_attrOf (by rw [hbody']; rfl))) htree
    | error e t' =>
      rw [hx, final_error] at htree
      have hfits : ¬ FileTree.Accepts os.maxBytes content (offsetOf offset toEof) data :=
        fun hfits => by
          obtain ⟨r, t', hok⟩ := writeFile_of_accepts hex hd hfits
          rw [hx] at hok
          cases hok
      rw [← hx]
      exact does_error h hx (FileTree.run_write_short hcontent hfits) (.inl rfl) htree

/-- `set_len` resizes the file, unless the size is too large for the system. -/
theorem setLen_of_le {content : List UInt8} {size : UInt64}
    (hex : srv.Existing t relative path q) (hd : Fs.dataAt t q = some content)
    (hle : size.toNat ≤ os.maxBytes) :
    ∃ attr, srv.setLen os relative size false t
      = .ok attr (Fs.store os q (Fs.resize content size.toNat) t) := by
  have hbound : ¬ 2 ^ 63 ≤ size.toNat := Nat.not_le.mpr (hle.trans_lt os.maxBytes_lt)
  have hset : Fs.setLen os ⟨q, 0⟩ size.toNat t
      = .ok () (Fs.store os q (Fs.resize content size.toNat) t) := by
    refine attempt_of_ok ?_
    rw [if_neg hbound, if_neg (Nat.not_lt.mpr hle), hd]
  have hshape := (Fs.still_setLen _ _).shape_eq hset
  have hres : resolve (Fs.store os q (Fs.resize content size.toNat) t) path = .ok q := by
    rw [resolve_congr hshape, hex.resolves]
  obtain ⟨e, he, -⟩ := resolve_look hres
  have htrunc : truncateFile os path size t
      = .ok () (Fs.store os q (Fs.resize content size.toNat) t) :=
    bind_eq_ok.mpr ⟨_, t, hex.openWrite (shape_of_dataAt hd), io_eq_ok.mpr hset⟩
  refine ⟨attrOf e, ?_⟩
  unfold setLen
  rw [hex.bind, if_neg Bool.false_ne_true, bind_of_ok htrunc]
  exact attrForPath_eq_ok.mpr ⟨⟨q, e, ⟨hex.nul, hres⟩, he, rfl⟩, rfl⟩

/-- `truncate_file` changes the file or fails without a change. -/
theorem atomic_truncateFile (path : PathBuf) (size : UInt64) :
    Atomic (truncateFile os path size) :=
  .bind_of_quiet (quiet_query _ _) fun _ => .mapError (.attempt _)

/-- The attributes can be read where the path leads to something. -/
theorem attrForPath_of_shape (hex : srv.Existing t relative path q) (hshape : t'.shape = t.shape) :
    ∃ e, t'.look q = some e ∧ attrForPath path t' = .ok (attrOf e) t' := by
  have hres : resolve t' path = .ok q := by rw [resolve_congr hshape, hex.resolves]
  obtain ⟨e, he, -⟩ := resolve_look hres
  exact ⟨e, he, attrForPath_eq_ok.mpr ⟨⟨q, e, ⟨hex.nul, hres⟩, he, rfl⟩, rfl⟩⟩

/-- A change of the length that fails has changed nothing. -/
theorem setLen_unchanged {size : UInt64} (hex : srv.Existing t relative path q)
    (hno : ∀ attr t', srv.setLen os relative size false t ≠ .ok attr t') :
    ∃ e, srv.setLen os relative size false t = .error e t := by
  have happly : srv.setLen os relative size false t
      = (truncateFile os path size >>= fun _ => attrForPath path) t := hex.bind _
  rw [happly] at hno ⊢
  cases hx : truncateFile os path size t with
  | ok u t1 =>
    -- nothing fails behind the change
    obtain ⟨e, -, hattr⟩ := attrForPath_of_shape hex ((still_truncateFile path size).shape_eq hx)
    exact absurd (bind_eq_ok.mpr ⟨u, t1, hx, hattr⟩) (hno _ _)
  | error e t1 =>
    obtain rfl := atomic_truncateFile path size t e t1 hx
    exact ⟨e, bind_of_error hx⟩

/-- `set_len` resizes, or only looks if the allocation is meant. -/
theorem does_setLen (h : srv.Plain t) (os : Os) (size : UInt64) (allocation : Bool) :
    Does h os.maxBytes
      (onPath relative fun p => if allocation then .look p else .resize p size.toNat)
      ((.attr <$> srv.setLen os relative size allocation : ServerM Response) t) := by
  cases allocation with
  | true => exact does_stat h os.maxBytes
  | false =>
  refine does_at h ?_ (fun rel hnode => ?_) fun rel n hrel hnode => ?_
  · exact (existing_or_error t _).imp_right fun ⟨e, herr⟩ => ⟨e, map_of_error herr⟩
  · show h.view.run os.maxBytes (.resize rel size.toNat) = _
    simp only [FileTree.run, FileTree.contents, hnode]
  show Does h os.maxBytes (.resize rel size.toNat) _
  have hex := h.existing_of_node hrel (by rw [hnode]; simp)
  by_cases hok : ∃ content, h.view.contents rel = some content ∧ size.toNat ≤ os.maxBytes
  · obtain ⟨content, hcontent, hle⟩ := hok
    have hd := h.contents_iff.mp hcontent
    obtain ⟨attr, hset⟩ := setLen_of_le hex hd hle
    have hafter : Fs.dataAt (Fs.store os (srv.rootReal ++ rel) (Fs.resize content size.toNat) t) _
        = some (Fs.resize content size.toNat) := dataAt_store hd _
    have hsame : SameBut (srv.rootReal ++ rel) t (final (srv.setLen os relative size false t)) :=
      sameBut_setLen hex.about size false
    rw [hset] at hsame
    have htree := h.put_file (FileTree.contents_eq_some.mp hcontent)
      ((still_setLen size false).shape_eq hset) hafter hsame
    have hrun : h.view.run os.maxBytes (.resize rel size.toNat)
        = (some (.node (.file (FileTree.resized content size.toNat))),
          h.view.put rel (.file (FileTree.resized content size.toNat))) := by
      simp only [FileTree.run, hcontent, if_pos hle]
    obtain ⟨path, q, content', hex', hd', hholds, -⟩ := setLen_eq_ok hset
    obtain ⟨rfl, rfl⟩ := hex.unique hex'
    obtain ⟨e, he, hbody, rfl⟩ := hholds.entry
    rw [hd] at hd'
    cases hd'
    exact does_ok h (map_eq_ok.mpr ⟨_, hset, rfl⟩) hrun
      (.node (depicts_attrOf (by rw [hbody]; rfl))) htree
  · -- not a file, or too long
    have hno : ∀ attr t', srv.setLen os relative size false t ≠ .ok attr t' := by
      intro attr t' hset
      obtain ⟨path, q, content, hex', hd, -, hle, -⟩ := setLen_eq_ok hset
      obtain ⟨rfl, rfl⟩ := hex.unique hex'
      exact hok ⟨content, h.contents_iff.mpr hd, hle⟩
    obtain ⟨e, herr⟩ := setLen_unchanged hex hno
    have hfails := map_of_error (f := Response.attr) herr
    refine does_refused h hfails ?_
    cases hcontent : h.view.contents rel with
    | none => simp only [FileTree.run, hcontent]
    | some content =>
      simp only [FileTree.run, hcontent, if_neg fun hle => hok ⟨content, hcontent, hle⟩]

/-! ### Attributes -/

/-- A request that leaves every body alone leaves the abstract tree alone. -/
theorem Plain.of_bodies (h : srv.Plain t) (hshape : t'.shape = t.shape)
    (hbody : ∀ q, bodyAt t' q = bodyAt t q) : ∃ h' : srv.Plain t', h'.view = h.view := by
  refine h.of_stands ⟨⟨h.exported.1.1, ?_⟩, ?_⟩ (fun r => ?_) fun r hr => h.nul_of_node hr
  · rw [resolve_congr hshape, h.exported.1.2]
  · rw [hshape, h.exported.2]
  · rw [hbody]
    exact h.stands r

/-- `set_basic_info` changes no node. -/
theorem does_setBasicInfo (h : srv.Plain t) (os : Os) (update : BasicInfoUpdate) :
    Does h os.maxBytes (onPath relative .adjust)
      ((.attr <$> srv.setBasicInfo os relative update : ServerM Response) t) := by
  refine does_at h ?_ (fun rel hnode => ?_) fun rel n hrel hnode => ?_
  · exact (existing_or_error t _).imp_right fun ⟨e, herr⟩ => ⟨e, map_of_error herr⟩
  · simp only [FileTree.run, hnode, Option.map_none]
  have hex := h.existing_of_node hrel (by rw [hnode]; simp)
  obtain ⟨e, he, hn, -⟩ := h.entry_of_node hnode
  have hrun : h.view.run os.maxBytes (.adjust rel) = (some (.node n), h.view) := by
    simp only [FileTree.run, hnode, Option.map_some]
  rcases setBasicInfo_cases os hex he update with ⟨-, -, err, herr⟩ | ⟨-, e', t', hok, hup⟩
  · -- the mode is changed, and the times are refused
    have hfails := map_of_error (f := Response.attr) herr
    obtain ⟨c, hlook⟩ := look_withReadonly os he update.readonly
    refine does_error h hfails hrun (.inr trivial) ?_
    refine h.of_bodies (shape_withReadonly os _ e update.readonly t) fun q => ?_
    by_cases hq : q = srv.rootReal ++ rel
    · rw [hq, bodyAt, bodyAt, hlook, he]
      rfl
    · exact bodyAt_congr (sameBut_withReadonly os _ e update.readonly t q hq)
  · refine does_ok h (map_eq_ok.mpr ⟨_, hok, rfl⟩) hrun
      (.node (depicts_attrOf (by rw [hup.body, hn]))) (h.of_bodies hup.shape fun q => ?_)
    by_cases hq : q = srv.rootReal ++ rel
    · rw [hq, bodyAt, bodyAt, hup.entry, he, Option.map_some, Option.map_some, hup.body]
    · exact bodyAt_congr (hup.others q hq)

/-! ### New entries -/

/-- The entry that a `Create` makes: the name `x` in the directory `d`, where nothing is yet. -/
structure Creates (srv : RpcServer) (t : Tree) (relative : String) (kind : EntryKind)
    (path : PathBuf) (d : Loc) (x : Name) : Prop where
  forNew : ∃ q, srv.ForNew t relative path q
  nul    : path.hasNul = false
  names  : Names t path d x
  free   : t.look (d ++ [x]) = none
  plain  : kind = .file → path.trailing = false

/-- The body of a new entry. -/
def blank (os : Os) : EntryKind → Body
  | .file      => .file []
  | .directory => .dir os.dirSize

/-- The attributes of a new entry. -/
def freshAttr (os : Os) : EntryKind → Attr
  | .file      => os.newAttr os.filePerm
  | .directory => os.newAttr os.dirPerm

/-- The tree with the new entry in it. -/
def created (os : Os) (kind : EntryKind) (d : Loc) (x : Name) (t : Tree) : Tree :=
  (t.insert d x (freshAttr os kind) (blank os kind)).touch os d

/-- **A new entry** is made, and its attributes are answered. -/
theorem Creates.run {kind : EntryKind} (h : srv.Creates t relative kind path d x) (os : Os) :
    srv.createEntry os relative kind t
      = .ok (attrOf ⟨d ++ [x], t.next, freshAttr os kind, blank os kind⟩)
        (created os kind d x t) := by
  obtain ⟨q, hnew⟩ := h.forNew
  have hres : resolve (created os kind d x t) path = .ok (d ++ [x]) := by
    unfold created
    rw [resolve_touch]
    refine h.names.resolve_insert h.free ?_
    cases kind with
    | file => exact .inr ⟨rfl, h.plain rfl⟩
    | directory => exact .inl rfl
  have hlook : (created os kind d x t).look (d ++ [x])
      = some ⟨d ++ [x], t.next, freshAttr os kind, blank os kind⟩ := by
    unfold created
    rw [Tree.look_touch_of_ne (by simp), Tree.look_insert_self h.names.dir h.free]
  have hattr := attrForPath_eq_ok.mpr ⟨⟨_, _, ⟨h.nul, hres⟩, hlook, rfl⟩, rfl⟩
  refine (bind_of_ok (resolveForNewPath_eq_ok.mpr ⟨⟨q, hnew⟩, rfl⟩)).trans ?_
  cases kind with
  | file =>
    have hcall : io (Fs.createNew os path) t = .ok () (created os .file d x t) :=
      io_eq_ok.mpr (Fs.createNew_eq_ok.mpr ⟨h.nul, d, x, h.names, h.plain rfl, h.free, rfl⟩)
    exact (bind_of_ok hcall).trans hattr
  | directory =>
    have hcall : io (Fs.createDir os path) t = .ok () (created os .directory d x t) :=
      io_eq_ok.mpr (Fs.createDir_eq_ok.mpr ⟨h.nul, d, x, h.names, h.free, rfl⟩)
    exact (bind_of_ok hcall).trans hattr

/-- Otherwise the request is refused, and changes nothing. -/
theorem createEntry_error {kind : EntryKind}
    (hno : ¬ ∃ path d x, srv.Creates t relative kind path d x) (os : Os) :
    ∃ e, srv.createEntry os relative kind t = .error e t := by
  have hsame : final (srv.resolveForNewPath relative t) = t := quiet_resolveForNewPath t
  cases hpath : srv.resolveForNewPath relative t with
  | error e s =>
    rw [hpath, final_error] at hsame
    subst hsame
    exact ⟨e, bind_of_error hpath⟩
  | ok path s =>
  obtain ⟨hnew, rfl⟩ := resolveForNewPath_eq_ok.mp hpath
  cases kind with
  | file =>
    cases hcall : Fs.createNew os path s with
    | error e s' =>
      obtain rfl := Fs.effect_error hcall
      exact ⟨_, (bind_of_ok hpath).trans (bind_of_error (mapError_of_error hcall))⟩
    | ok u s' =>
      obtain ⟨hnul, d, x, hnames, htr, hfree, -⟩ := Fs.createNew_eq_ok.mp hcall
      exact absurd ⟨path, d, x, hnew, hnul, hnames, hfree, fun _ => htr⟩ hno
  | directory =>
    cases hcall : Fs.createDir os path s with
    | error e s' =>
      obtain rfl := Fs.effect_error hcall
      exact ⟨_, (bind_of_ok hpath).trans (bind_of_error (mapError_of_error hcall))⟩
    | ok u s' =>
      obtain ⟨hnul, d, x, hnames, hfree, -⟩ := Fs.createDir_eq_ok.mp hcall
      exact absurd ⟨path, d, x, hnew, hnul, hnames, hfree, fun hk => by cases hk⟩ hno

/-- On a plain tree an entry is made where the abstract tree has none, in a directory. -/
theorem Plain.creates_iff (h : srv.Plain t) {kind : EntryKind} :
    srv.Creates t relative kind path d x ↔ ∃ up, namesOf relative = some (up ++ [x]) ∧
      path = srv.root.join (up ++ [x]) ∧ d = srv.rootReal ++ up ∧
      h.view.node (up ++ [x]) = none ∧ h.view.node up = some .dir := by
  constructor
  · intro hc
    obtain ⟨q, hnew⟩ := hc.forNew
    obtain ⟨up, y, hrel, rfl, -, -⟩ := h.forNew_iff.mp hnew
    obtain ⟨rfl, rfl, hdir⟩ := h.names_iff.mp hc.names
    refine ⟨up, namesOf_eq_some.mpr ⟨hrel, (hasNul_join.mp hc.nul).2⟩, rfl, rfl, ?_, ?_⟩
    · rw [h.node_eq_none_iff, Tree.shape_eq_none_iff, ← List.append_assoc, hc.free]
    · exact h.node_eq_dir_iff.mpr hdir
  · rintro ⟨up, hrel, rfl, rfl, hfree, hdir⟩
    obtain ⟨hrel, hnul⟩ := namesOf_eq_some.mp hrel
    have hs := h.node_eq_dir_iff.mp hdir
    refine ⟨⟨_, h.forNew_iff.mpr ⟨up, x, hrel, rfl, rfl, by rw [hs]; simp⟩⟩,
      hasNul_join.mpr ⟨h.exported.1.1, hnul⟩, h.names_iff.mpr ⟨rfl, rfl, hs⟩, ?_, fun _ => ?_⟩
    · rw [h.node_eq_none_iff, Tree.shape_eq_none_iff] at hfree
      rw [List.append_assoc, hfree]
    · unfold PathBuf.join
      rw [if_neg (by simp)]

/-- `create_entry` makes what its command makes. -/
theorem does_create (h : srv.Plain t) (os : Os) (kind : EntryKind)
    (hexp : srv.Exported (final (srv.createEntry os relative kind t))) :
    Does h os.maxBytes (onPath relative fun p => .make p kind.kind)
      ((.attr <$> srv.createEntry os relative kind : ServerM Response) t) := by
  by_cases hc : ∃ path d x, srv.Creates t relative kind path d x
  · obtain ⟨path, d, x, hc⟩ := hc
    have hrun := hc.run os
    obtain ⟨up, hrel, rfl, rfl, hfree, hdir⟩ := h.creates_iff.mp hc
    have hfits : h.view.Fits (up ++ [x]) kind.kind.blank :=
      FileTree.fits_new hfree (by rw [List.dropLast_concat, hdir])
    have hblank : nodeOf (blank os kind) = some kind.kind.blank := by cases kind <;> rfl
    rw [hrun, final_ok] at hexp
    have htree : ∃ h' : srv.Plain (created os kind (srv.rootReal ++ up) x t),
        h'.view = h.view.put (up ++ [x]) kind.kind.blank := by
      refine h.of_stands hexp (fun r => ?_) fun r hr => ?_
      · unfold created
        rw [bodyAt_touch]
        by_cases hr : r = up ++ [x]
        · rw [hr, ← List.append_assoc, bodyAt, Tree.look_insert_self hc.names.dir hc.free,
            FileTree.node_put_self hfits]
          refine ⟨hblank, fun target hlink => ?_⟩
          cases kind <;> cases hlink
        · have hne : srv.rootReal ++ r ≠ srv.rootReal ++ up ++ [x] := by
            rw [List.append_assoc, ne_eq, append_rel_inj]
            exact hr
          rw [bodyAt_congr (Tree.look_insert_of_ne hne), FileTree.node_put_of_ne hr]
          exact h.stands r
      · by_cases hne : r = up ++ [x]
        · rw [hne]
          exact (namesOf_eq_some.mp hrel).2
        · rw [FileTree.node_put_of_ne hne] at hr
          exact h.nul_of_node hr
    rw [onPath_of_some hrel]
    have hdepicts : Depicts (attrOf ⟨srv.rootReal ++ up ++ [x], t.next, freshAttr os kind,
        blank os kind⟩) kind.kind.blank := depicts_attrOf hblank
    refine does_ok h (map_eq_ok.mpr ⟨_, hrun, rfl⟩) ?_ (.node hdepicts) htree
    simp only [FileTree.run, List.dropLast_concat, hfree, hdir, and_self, if_true]
  · obtain ⟨e, herr⟩ := createEntry_error hc os
    refine does_refused h (map_of_error herr) ?_
    cases hrel : namesOf relative with
    | none => rw [onPath_of_none hrel]; rfl
    | some rel =>
      rw [onPath_of_some hrel]
      simp only [FileTree.run]
      refine if_neg fun hcond => hc ?_
      obtain ⟨hfree, hdir⟩ := hcond
      rcases List.eq_nil_or_concat rel with rfl | ⟨up, x, rfl⟩
      · rw [h.view.root] at hfree
        cases hfree
      · rw [List.concat_eq_append] at hrel hfree hdir
        rw [List.dropLast_concat] at hdir
        exact ⟨_, _, x, h.creates_iff.mpr ⟨up, hrel, rfl, rfl, hfree, hdir⟩⟩

/-! ### Removals -/

/-- What a removal leaves, if the exported root is still there. -/
theorem Plain.erase (h : srv.Plain t) (hne : rel ≠ []) (hloc : srv.rootReal ++ rel = d ++ [x])
    (hexp : srv.Exported ((t.prune (d ++ [x])).touch os d)) :
    ∃ h' : srv.Plain ((t.prune (d ++ [x])).touch os d), h'.view = h.view.erase rel := by
  refine h.of_stands hexp (fun r => ?_) fun r hr => ?_
  · rw [bodyAt_touch, FileTree.node_erase hne, bodyAt, Tree.look_prune (by simp), ← hloc]
    by_cases hp : rel <+: r
    · rw [if_pos hp, if_pos ((List.prefix_append_right_inj _).mpr hp)]
      exact ⟨rfl, fun target hlink => by cases hlink⟩
    · rw [if_neg hp, if_neg fun hpre => hp ((List.prefix_append_right_inj _).mp hpre)]
      exact h.stands r
  · rw [FileTree.node_erase hne] at hr
    split at hr
    · exact absurd rfl hr
    · exact h.nul_of_node hr

/-- The removal of the entry `y` of `d` takes the node at `rel`. -/
structure Erases (h : srv.Plain t) (relative : String) (kind : FileTree.Kind) (rel : List Name)
    (d : Loc) (y : Name) : Prop where
  names     : namesOf relative = some rel
  ne        : rel ≠ []
  removable : h.view.Removable rel kind
  loc       : srv.rootReal ++ rel = d ++ [y]

/-- A call that removes one node, or fails and changes nothing. -/
theorem does_removal (h : srv.Plain t) {x : ServerM Unit} (kind : EntryKind) (hatomic : Atomic x)
    (hexp : srv.Exported (final (x t)))
    (hok : ∀ u t', x t = .ok u t' → srv.Exported t' → ∃ rel d y,
      Erases h relative kind.kind rel d y ∧ (t.prune (d ++ [y])).touch os d = t')
    (hdo : ∀ rel d y, Erases h relative kind.kind rel d y → ∃ t', x t = .ok () t') :
    Does h os.maxBytes (onPath relative fun p => .remove p kind.kind)
      ((do x; return .empty : ServerM Response) t) := by
  cases hx : x t with
  | ok u t' =>
    rw [hx, final_ok] at hexp
    obtain ⟨rel, d, y, herases, rfl⟩ := hok u t' hx hexp
    rw [onPath_of_some herases.names]
    have hrun : h.view.run os.maxBytes (.remove rel kind.kind)
        = (some .done, h.view.erase rel) := by
      simp only [FileTree.run]
      exact if_pos ⟨herases.ne, herases.removable⟩
    exact does_ok h (bind_of_ok hx) hrun .done (h.erase herases.ne herases.loc hexp)
  | error e t' =>
    obtain rfl := hatomic t e t' hx
    refine does_refused h (bind_of_error hx) ?_
    cases hrel : namesOf relative with
    | none => rw [onPath_of_none hrel]; rfl
    | some rel =>
      rw [onPath_of_some hrel]
      simp only [FileTree.run]
      refine if_neg fun hcond => ?_
      obtain ⟨hne, hremovable⟩ := hcond
      rcases List.eq_nil_or_concat rel with rfl | ⟨up, y, rfl⟩
      · exact hne rfl
      obtain ⟨t', hsucceeds⟩ := hdo (up.concat y) (srv.rootReal ++ up) y
        ⟨hrel, hne, hremovable, by rw [List.concat_eq_append, List.append_assoc]⟩
      rw [hx] at hsucceeds
      cases hsucceeds

/-- A path other than the root's names the entry of its node. -/
theorem Plain.loc_of_names (h : srv.Plain t) (hne : rel ≠ [])
    (hnames : Names t (srv.root.join rel) d x) : srv.rootReal ++ rel = d ++ [x] := by
  rcases List.eq_nil_or_concat rel with rfl | ⟨up, y, rfl⟩
  · exact absurd rfl hne
  rw [List.concat_eq_append] at hnames ⊢
  obtain ⟨rfl, rfl, -⟩ := h.names_iff.mp hnames
  exact (List.append_assoc _ _ _).symm

/-- The path of a node below the root names its entry. -/
theorem Erases.found {h : srv.Plain t} {kind : FileTree.Kind}
    (he : Erases h relative kind rel d x) :
    srv.Existing t relative (srv.root.join rel) (srv.rootReal ++ rel) ∧
      Names t (srv.root.join rel) d x ∧ (srv.root.join rel).trailing = false := by
  have hnode : h.view.node rel ≠ none := by
    have hr := he.removable
    cases kind with
    | file =>
      obtain ⟨data, hfile⟩ := hr
      rw [hfile]
      simp
    | dir =>
      rw [hr.1]
      simp
  rcases List.eq_nil_or_concat rel with rfl | ⟨up, z, rfl⟩
  · exact absurd rfl he.ne
  have hdir := h.view.closed _ he.ne hnode
  have hloc := he.loc
  rw [List.concat_eq_append] at hdir hloc hnode ⊢
  rw [List.dropLast_concat] at hdir
  rw [← List.append_assoc] at hloc
  obtain rfl := List.append_inj_left' hloc rfl
  obtain rfl := List.singleton_inj.mp (List.append_inj_right' hloc rfl)
  refine ⟨h.existing_of_node (by rw [← List.concat_eq_append]; exact he.names) hnode,
    h.names_iff.mpr ⟨rfl, rfl, h.node_eq_dir_iff.mp hdir⟩, ?_⟩
  unfold PathBuf.join
  rw [if_neg (by simp)]

/-- `remove_file` removes what its command removes. -/
theorem does_removeFile (h : srv.Plain t) (os : Os)
    (hexp : srv.Exported (final (srv.removeFile os relative t))) :
    Does h os.maxBytes (onPath relative fun p => .remove p .file)
      ((do srv.removeFile os relative; return .empty : ServerM Response) t) := by
  refine does_removal h .file atomic_removeFile hexp (fun u t' hok _ => ?_)
    fun rel d y he => ?_
  · obtain ⟨path, q, d, y, e, hex, hnames, he, hdir, htr, rfl⟩ := removeFile_eq_ok.mp hok
    obtain ⟨rel, hrel, rfl, rfl, hnode⟩ := h.existing_names.mp hex
    -- the path of the root ends in a slash
    have hne : rel ≠ [] := by
      rintro rfl
      unfold PathBuf.join at htr
      rw [if_pos rfl] at htr
      cases htr
    have hloc := h.loc_of_names hne hnames
    refine ⟨rel, d, y, ⟨hrel, hne, (h.removable_iff .file).mpr ?_, hloc⟩, rfl⟩
    rw [← hloc] at he
    have hshape := Tree.shape_of_look he
    -- neither a directory nor a link
    cases hs : e.shape with
    | file => exact hshape.trans (congrArg some hs)
    | dir => exact absurd hs hdir
    | symlink target => exact absurd (hshape.trans (congrArg some hs)) (h.noLinks rel target)
  · obtain ⟨hex, hnames, htr⟩ := he.found
    have hfile := h.file_iff.mp he.removable
    rw [he.loc, Tree.shape_eq_some_iff] at hfile
    obtain ⟨e, hlook, hs⟩ := hfile
    exact ⟨_, removeFile_eq_ok.mpr ⟨_, _, d, y, e, hex, hnames, hlook, by rw [hs]; simp, htr, rfl⟩⟩

/-- `remove_dir` removes what its command removes. -/
theorem does_removeDir (h : srv.Plain t) (os : Os)
    (hexp : srv.Exported (final (srv.removeDir os relative t))) :
    Does h os.maxBytes (onPath relative fun p => .remove p .dir)
      ((do srv.removeDir os relative; return .empty : ServerM Response) t) := by
  refine does_removal h .directory atomic_removeDir hexp (fun u t' hok hexp' => ?_)
    fun rel d y he => ?_
  · obtain ⟨path, q, d, y, e, hex, hnames, he, hdir, hempty, rfl⟩ := removeDir_eq_ok.mp hok
    obtain ⟨rel, hrel, rfl, rfl, hnode⟩ := h.existing_names.mp hex
    have hshape := (Tree.shape_of_look he).trans (congrArg some hdir)
    have hne : rel ≠ [] := by
      -- without the root nothing would be exported
      rintro rfl
      obtain ⟨e', he', hself⟩ := h.names_root hnames
      rw [he] at he'
      cases he'
      have hroot := hself fun target hlink => by rw [hdir] at hlink; cases hlink
      have hgone := hexp'.2
      rw [Tree.shape_touch, Tree.shape_prune (by simp), hroot, if_pos (List.prefix_refl _)] at hgone
      cases hgone
    have hloc := h.loc_of_names hne hnames
    refine ⟨rel, d, y, ⟨hrel, hne, (h.removable_iff .directory).mpr ?_, hloc⟩, rfl⟩
    rw [hloc]
    exact ⟨hshape, hempty⟩
  · obtain ⟨hex, hnames, -⟩ := he.found
    have hdel : Deletable t (srv.rootReal ++ rel) .directory :=
      (h.removable_iff .directory).mp he.removable
    obtain ⟨hdir, hempty⟩ := hdel
    rw [he.loc] at hdir hempty
    obtain ⟨e, hlook, hs⟩ := Tree.shape_eq_some_iff.mp hdir
    exact ⟨_, removeDir_eq_ok.mpr ⟨_, _, d, y, e, hex, hnames, hlook, hs, hempty, rfl⟩⟩

end RpcServer

end Netfilum
