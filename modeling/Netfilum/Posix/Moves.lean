import Netfilum.Posix.Effects
import Netfilum.Posix.Objects

namespace Posix

open Program Rust

/-!
# What a move or a removal leaves behind

The effect of `rename(2)`, `unlink(2)` and `rmdir(2)` on every entry of the tree, as
relations between the trees before and after.

* `Moved` — the subtree at one location stands at another, and nothing else changed but
  the stamps of the entry and of the two directories.
* `moved_renamed` — this is what `Fs.renamed` does;  `Moved.of_cleared` — also when the
  entry at the target was removed first.
* `Moved.not_has` — what stood at the target is gone.
* `Moved.names_source`, `Moved.names_target` — what the two paths name afterwards.
* `Removed` — one entry is gone, and nothing else changed but the stamp of its directory.
-/

variable {os : Os} {t t' : Tree} {p : PathBuf} {src dst d v : Loc} {x : Name}

/-- The entry, stamped as modified. -/
def Os.stamp (os : Os) (e : Entry) : Entry := { e with attr := os.modified e.attr }

/-- The directory is stamped. -/
theorem look_touch_self : (t.touch os d).look d = (t.look d).map os.stamp := by
  cases he : t.look d with
  | none =>
    rw [Option.map_none, ← Tree.shape_eq_none_iff, Tree.shape_touch, Tree.shape_eq_none_iff, he]
  | some e =>
    unfold Tree.touch
    rw [Tree.look_setAttr_self he]
    rfl

/-- An entry with new attributes, wherever it came from. -/
theorem look_setAttr_map {f : Attr → Attr} {g : Entry → Entry} {o : Option Entry}
    (h : t.look d = o.map g) :
    (t.setAttr d f).look d = o.map fun e => { g e with attr := f (g e).attr } := by
  cases o with
  | none => rw [Option.map_none, ← Tree.shape_eq_none_iff, Tree.shape_setAttr,
      Tree.shape_eq_none_iff, h, Option.map_none]
  | some e => exact Tree.look_setAttr_self h

/-- Stamping twice at one moment is stamping once. -/
theorem map_stamp_stamp (o : Option Entry) : (o.map os.stamp).map os.stamp = o.map os.stamp := by
  cases o <;> rfl

/-- The entry as it stands at `dst` once it is moved there. -/
def Os.arrived (os : Os) (dst : Loc) (e : Entry) : Entry :=
  { e with loc := dst, attr := os.changed e.attr }

/-- `t'` is `t` with the subtree at `src` moved to `dst`, in the place of what was there.
    The entry carries the current time as that of its last status change, and the
    directories of both are stamped as modified. -/
structure Moved (os : Os) (src dst : Loc) (t t' : Tree) : Prop where
  same    : src = dst → t' = t
  apart   : src ≠ dst → ¬ src <+: dst ∧ ¬ dst <+: src
  target  : src ≠ dst → t'.look dst = (t.look src).map (os.arrived dst)
  below   : ∀ r, r ≠ [] →
    t'.look (dst ++ r) = (t.look (src ++ r)).map fun e => { e with loc := dst ++ r }
  source  : src ≠ dst → ∀ v, src <+: v → t'.look v = none
  stamped : src ≠ dst → ∀ v, v = src.dropLast ∨ v = dst.dropLast →
    t'.look v = (t.look v).map os.stamp
  others  : ∀ v, ¬ src <+: v → ¬ dst <+: v → v ≠ src.dropLast → v ≠ dst.dropLast →
    t'.look v = t.look v

/-- Two entries, neither of which lies below the other. -/
structure Apart (src dst : Loc) : Prop where
  src_ne : src ≠ []
  dst_ne : dst ≠ []
  below  : ¬ src <+: dst
  above  : ¬ dst <+: src

namespace Apart

/-- The two places may be exchanged. -/
theorem symm (h : Apart src dst) : Apart dst src := ⟨h.dst_ne, h.src_ne, h.above, h.below⟩

/-- The two places are different. -/
theorem ne (h : Apart src dst) : src ≠ dst := fun heq => h.below (heq ▸ List.prefix_refl src)

/-- Nothing lies at or below both. -/
theorem not_both (h : Apart src dst) (hs : src <+: v) : ¬ dst <+: v := by
  intro hd
  rcases List.prefix_or_prefix_of_prefix hs hd with hp | hp
  · exact h.below hp
  · exact h.above hp

/-- The directory of the one is not at or below the other. -/
theorem not_dropLast (h : Apart src dst) : ¬ src <+: dst.dropLast := fun hp =>
  h.below (hp.trans (List.dropLast_prefix dst))

/-- The entry does not lie at or above its own directory. -/
theorem not_dropLast_self (h : Apart src dst) : ¬ src <+: src.dropLast :=
  not_prefix_dropLast h.src_ne

/-- Outside the two entries a directory of theirs is not hit by stamping the other. -/
theorem ne_dropLast (h : Apart src dst) (hs : src <+: v) : v ≠ src.dropLast ∧ v ≠ dst.dropLast :=
  ⟨fun heq => h.not_dropLast_self (heq ▸ hs), fun heq => h.not_dropLast (heq ▸ hs)⟩

end Apart

/-! ### The effect of a move -/

/-- A move onto itself changes nothing. -/
theorem moved_self (os : Os) (src : Loc) (t : Tree) : Moved os src src t t where
  same _ := rfl
  apart h := absurd rfl h
  target h := absurd rfl h
  below r _ := by
    cases he : t.look (src ++ r) with
    | none => rfl
    | some e =>
      show some e = some { e with loc := src ++ r }
      rw [← Tree.look_loc he]
  source h := absurd rfl h
  stamped h := absurd rfl h
  others _ _ _ _ _ := rfl

/-- A rename moves the entry with everything below it. -/
theorem moved_renamed (h : Apart src dst) (hparent : t.shape dst.dropLast = some .dir) :
    Moved os src dst t (Fs.renamed os src dst t) := by
  have hmovable := movable_prune h.src_ne h.dst_ne hparent h.below
  have hrenamed : Fs.renamed os src dst t = ((((t.prune dst).move src dst).setAttr dst
      os.changed).touch os src.dropLast).touch os dst.dropLast := if_neg h.ne
  -- away from both entries neither the move nor the stamp of the entry shows
  have helse : ∀ v, ¬ src <+: v → ¬ dst <+: v →
      (((t.prune dst).move src dst).setAttr dst os.changed).look v = t.look v := fun v hs hd => by
    have hne : v ≠ dst := fun heq => hd (heq ▸ List.prefix_refl v)
    rw [Tree.look_setAttr_of_ne hne, Tree.look_move_of_apart hs hd, Tree.look_prune_apart hd]
  have harrived : ∀ r, ((t.prune dst).move src dst).look (dst ++ r)
      = (t.look (src ++ r)).map fun e => { e with loc := dst ++ r } := fun r => by
    rw [Tree.look_move_target hmovable,
      Tree.look_prune_apart (h.not_both (List.prefix_append src r))]
  rw [hrenamed]
  refine ⟨fun heq => absurd heq h.ne, fun _ => ⟨h.below, h.above⟩, fun _ => ?_, fun r hr => ?_,
    fun _ v hv => ?_, fun _ v hv => ?_, fun v hs hd hns hnd => ?_⟩
  · -- the entry itself
    obtain ⟨hnd, hns⟩ := h.symm.ne_dropLast (List.prefix_refl dst)
    rw [Tree.look_touch_of_ne hnd, Tree.look_touch_of_ne hns]
    have hentry := harrived []
    rw [List.append_nil, List.append_nil] at hentry
    exact look_setAttr_map hentry
  · -- what arrives with it
    obtain ⟨hnd, hns⟩ := h.symm.ne_dropLast (List.prefix_append dst r)
    rw [Tree.look_touch_of_ne hnd, Tree.look_touch_of_ne hns,
      Tree.look_setAttr_of_ne (by simpa using hr), harrived]
  · -- what is left behind
    obtain ⟨hns, hnd⟩ := h.ne_dropLast hv
    have hne : v ≠ dst := fun heq => h.below (heq ▸ hv)
    rw [Tree.look_touch_of_ne hnd, Tree.look_touch_of_ne hns, Tree.look_setAttr_of_ne hne]
    exact Tree.look_move_source hmovable h.above hv
  · -- a directory that both entries lie in is stamped twice
    have hout : ¬ src <+: v ∧ ¬ dst <+: v := by
      rcases hv with rfl | rfl
      · exact ⟨h.not_dropLast_self, h.symm.not_dropLast⟩
      · exact ⟨h.not_dropLast, h.symm.not_dropLast_self⟩
    by_cases hd : v = dst.dropLast
    · subst hd
      rw [look_touch_self]
      by_cases hs : dst.dropLast = src.dropLast
      · rw [hs, look_touch_self, map_stamp_stamp, ← hs, helse _ hout.1 hout.2]
      · rw [Tree.look_touch_of_ne hs, helse _ hout.1 hout.2]
    · obtain rfl := hv.resolve_right hd
      rw [Tree.look_touch_of_ne hd, look_touch_self, helse _ hout.1 hout.2]
  · rw [Tree.look_touch_of_ne hnd, Tree.look_touch_of_ne hns, helse v hs hd]

/-- Removing the entry at the target first makes no difference afterwards. -/
theorem Moved.of_cleared (h : Apart src dst)
    (hmoved : Moved os src dst ((t.prune dst).touch os dst.dropLast) t') :
    Moved os src dst t t' := by
  have hkept : ∀ v, ¬ dst <+: v → v ≠ dst.dropLast →
      ((t.prune dst).touch os dst.dropLast).look v = t.look v := fun v hd hne => by
    rw [Tree.look_touch_of_ne hne, Tree.look_prune_apart hd]
  refine ⟨fun heq => absurd heq h.ne, fun _ => ⟨h.below, h.above⟩, fun hne => ?_, fun r hr => ?_,
    hmoved.source, fun hne v hv => ?_, fun v hs hd hns hnd => ?_⟩
  · have hs := List.prefix_refl src
    rw [hmoved.target hne, hkept _ (h.not_both hs) (h.ne_dropLast hs).2]
  · have hs := List.prefix_append src r
    rw [hmoved.below r hr, hkept _ (h.not_both hs) (h.ne_dropLast hs).2]
  · rw [hmoved.stamped hne v hv]
    -- clearing the target has stamped its directory already
    by_cases hd : v = dst.dropLast
    · subst hd
      rw [look_touch_self, map_stamp_stamp, Tree.look_prune_apart h.symm.not_dropLast_self]
    · obtain rfl := hv.resolve_right hd
      rw [hkept _ h.symm.not_dropLast hd]
  · rw [hmoved.others v hs hd hns hnd, hkept v hd hnd]

namespace Moved

/-- What arrives is what left, but for the location and times. -/
theorem look_target (h : Moved os src dst t t') (r : Loc) : ∃ f : Attr → Attr,
    t'.look (dst ++ r) = (t.look (src ++ r)).map fun e =>
      { e with loc := dst ++ r, attr := f e.attr } := by
  rcases eq_or_ne r [] with rfl | hr
  · rw [List.append_nil, List.append_nil]
    by_cases heq : src = dst
    · refine ⟨id, ?_⟩
      rw [h.same heq, heq]
      cases he : t.look dst with
      | none => rfl
      | some e =>
        show some e = some { e with loc := dst }
        rw [← Tree.look_loc he]
    · exact ⟨os.changed, h.target heq⟩
  · exact ⟨id, h.below r hr⟩

/-- What stood at or below the target is gone. -/
theorem not_has (h : Moved os src dst t t') (hne : src ≠ dst) {e : Entry} (he : e ∈ t.entries)
    (hd : dst <+: e.loc) : ¬ t'.Has e.ino := by
  rintro ⟨e', he', hino⟩
  obtain ⟨hsd, hds⟩ := h.apart hne
  -- any entry of the old tree with this serial number is `e`, which is not outside `dst`
  have hold : ∀ v e₁, t.look v = some e₁ → e₁.ino = e.ino → dst <+: v := by
    intro v e₁ hv heq
    obtain rfl := t.eq_of_ino_eq (Tree.mem_of_look hv) he heq
    rwa [Tree.look_loc hv] at hd
  have hlook := Tree.look_of_mem he'
  by_cases hs : src <+: e'.loc
  · rw [h.source hne _ hs] at hlook
    cases hlook
  by_cases hd' : dst <+: e'.loc
  · obtain ⟨r, hr⟩ := hd'
    obtain ⟨f, htarget⟩ := h.look_target r
    rw [← hr, htarget, Option.map_eq_some_iff] at hlook
    obtain ⟨e₁, he₁, heq⟩ := hlook
    have hunder := hold _ e₁ he₁ (by rw [← hino, ← heq])
    rcases List.prefix_or_prefix_of_prefix hunder (List.prefix_append src r) with hp | hp
    · exact hds hp
    · exact hsd hp
  by_cases hparent : e'.loc = src.dropLast ∨ e'.loc = dst.dropLast
  · rw [h.stamped hne _ hparent, Option.map_eq_some_iff] at hlook
    obtain ⟨e₁, he₁, heq⟩ := hlook
    exact hd' (hold _ e₁ he₁ (by rw [← hino, ← heq]; rfl))
  · obtain ⟨hns, hnd⟩ := not_or.mp hparent
    rw [h.others _ hs hd' hns hnd] at hlook
    exact hd' (hold _ e' hlook hino)

/-- Away from both entries, path resolution sees no difference. -/
theorem tag_eq (h : Moved os src dst t t') (hs : ¬ src <+: v) (hd : ¬ dst <+: v) :
    t'.tag v = t.tag v := by
  by_cases hne : src = dst
  · rw [h.same hne]
  unfold Tree.tag
  by_cases hparent : v = src.dropLast ∨ v = dst.dropLast
  · rw [h.stamped hne v hparent, Option.map_map]
    rfl
  · obtain ⟨hns, hnd⟩ := not_or.mp hparent
    rw [h.others v hs hd hns hnd]

/-- The old path names nothing any more, unless its own way was through the target. -/
theorem names_source {d' : Loc} {x' : Name} (h : Moved os src dst t t') (hapart : Apart src dst)
    (hnames : Names t p d x) (hsrc : src = d ++ [x]) (hway : dst ∉ approach t p)
    (hnames' : Names t' p d' x') : t'.look (d' ++ [x']) = none := by
  have hkept : Names (t.prune dst) p d x := (names_prune_iff hapart.dst_ne).mpr ⟨hnames, hway⟩
  have hshape : ∀ v, ¬ src <+: v → ¬ dst <+: v → t'.shape v = t.shape v := fun v hs hd => by
    rw [Tree.shape_eq_map_tag, Tree.shape_eq_map_tag, h.tag_eq hs hd]
  -- both trees contain the old one without the two entries
  have hmeet : Meet ((t.prune dst).prune src).shape (t.prune dst).shape t'.shape := by
    refine ⟨Tree.fewer_prune src, fun v s hv => ?_, fun v hv => ?_⟩
    · rw [Tree.shape_prune hapart.src_ne, Tree.shape_prune hapart.dst_ne] at hv
      split at hv
      · cases hv
      · rename_i hs
        split at hv
        · cases hv
        · rename_i hd
          rw [hshape v hs hd, hv]
    · rw [Tree.shape_prune hapart.src_ne] at hv
      split at hv
      · rename_i hs
        exact .inr (Tree.shape_eq_none_iff.mpr (h.source hapart.ne v hs))
      · exact .inl hv
  obtain ⟨rfl, rfl⟩ := Names.meet hmeet hkept hnames'
  exact h.source hapart.ne _ (hsrc ▸ List.prefix_refl _)

/-- The new path names the target, if its way is through neither entry. -/
theorem names_target (h : Moved os src dst t t') (hs : src ≠ []) (hd : dst ≠ [])
    (hnames : Names t p d x) (hsway : src ∉ approach t p) (hdway : dst ∉ approach t p) :
    Names t' p d x := by
  obtain ⟨n, hn⟩ := hnames.walks
  have hroute : Route t (approach t p) := route_visits hn
  refine hnames.of_keeps fun v hv => h.tag_eq (fun hp => hsway ?_) fun hp => hdway ?_
  · exact hroute.above v hv src hp hs
  · exact hroute.above v hv dst hp hd

end Moved

/-! ### The effect of a removal -/

/-- `t'` is `t` without the entry at `v`.  Its directory is stamped as modified. -/
structure Removed (os : Os) (v : Loc) (t t' : Tree) : Prop where
  gone    : t'.look v = none
  stamped : t'.look v.dropLast = (t.look v.dropLast).map os.stamp
  others  : ∀ q, q ≠ v → q ≠ v.dropLast → t'.look q = t.look q

/-- Removing an entry that has nothing below it. -/
theorem removed_prune (hbelow : ∀ q, d ++ [x] <+: q → q ≠ d ++ [x] → t.look q = none) :
    Removed os (d ++ [x]) t ((t.prune (d ++ [x])).touch os d) := by
  have hne : d ++ [x] ≠ [] := by simp
  have hdir : d ++ [x] ≠ d := by simp
  have hapart := not_concat_prefix d x
  refine ⟨?_, ?_, fun q hq hqd => ?_⟩
  · rw [Tree.look_touch_of_ne hdir, Tree.look_prune_below hne (List.prefix_refl _)]
  · rw [List.dropLast_concat, look_touch_self, Tree.look_prune_apart hapart]
  · rw [List.dropLast_concat] at hqd
    rw [Tree.look_touch_of_ne hqd, Tree.look_prune hne]
    split
    · rename_i hin
      exact (hbelow q hin hq).symm
    · rfl

end Posix
