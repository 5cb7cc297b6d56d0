import Netfilum.Lib.Postcard

namespace Postcard

/-!
# What is accepted

Bytes that nobody has written may be read all the same: a varint can be longer than it has to
be.  What is read from them is written in no more bytes.

* `Reads P x` — `x` takes a text from the front of the input, whatever follows it, and its value
  and that text are related by `P`; with a rule for each way to put decoders together.
* `Codec.Frugal` — a codec writes no more than it reads; with a rule for each building block.
-/

variable {α β : Type}

/-- The decoder takes some bytes from the front, whatever follows them, and the value that it
    makes of them is related to them. -/
def Reads (P : α → List UInt8 → Prop) (x : Decoder α) : Prop :=
  ∀ s a rest, x s = .ok (a, rest) →
    ∃ used, s = used ++ rest ∧ P a used ∧ ∀ more, x (used ++ more) = .ok (a, more)

namespace Reads

variable {P : α → List UInt8 → Prop} {Q : α → β → List UInt8 → Prop} {R : β → List UInt8 → Prop}
  {x : Decoder α}

/-- What returns without reading reads nothing. -/
theorem pure {a : α} (h : P a []) : Reads P (pure a) := by
  rintro s _ _ ⟨⟩
  exact ⟨[], rfl, h, fun _ => rfl⟩

/-- What fails reads nothing that counts. -/
theorem throw (e : Error) : Reads P (throw e) := nofun

/-- What is read one after the other is read in two parts. -/
theorem bind {f : α → Decoder β} (hx : Reads P x) (hf : ∀ a, Reads (Q a) (f a))
    (h : ∀ a b used used', P a used → Q a b used' → R b (used ++ used')) : Reads R (x >>= f) := by
  intro s b rest hrun
  obtain ⟨a, s', hfirst, hsecond⟩ := bind_eq_ok.mp hrun
  obtain ⟨used, rfl, hP, hmore⟩ := hx s a s' hfirst
  obtain ⟨used', rfl, hQ, hmore'⟩ := hf a s' b rest hsecond
  refine ⟨used ++ used', by rw [List.append_assoc], h a b used used' hP hQ, fun more => ?_⟩
  rw [List.append_assoc, run_bind (hmore _), hmore']

/-- A function of what is read. -/
theorem map {f : α → β} (hx : Reads P x) (h : ∀ a used, P a used → R (f a) used) :
    Reads R (f <$> x) := by
  intro s b rest hrun
  obtain ⟨a, hfirst, rfl⟩ := map_eq_ok.mp hrun
  obtain ⟨used, rfl, hP, hmore⟩ := hx s a rest hfirst
  exact ⟨used, rfl, h a used hP, fun more => run_map (hmore more)⟩

/-- What is said of the bytes read may be weakened. -/
theorem mono {P' : α → List UInt8 → Prop} (hx : Reads P x) (h : ∀ a used, P a used → P' a used) :
    Reads P' x := by
  intro s a rest hrun
  obtain ⟨used, heq, hP, hmore⟩ := hx s a rest hrun
  exact ⟨used, heq, h a used hP, hmore⟩

/-- A branch reads what the one that is taken reads. -/
theorem ite {c : Prop} [Decidable c] {y : Decoder α} (hx : c → Reads P x) (hy : ¬ c → Reads P y) :
    Reads P (if c then x else y) := by
  by_cases hc : c
  · rw [if_pos hc]
    exact hx hc
  · rw [if_neg hc]
    exact hy hc

end Reads

/-! ### Bytes and varints -/

/-- One byte is read. -/
theorem reads_pop : Reads (fun b used => used = [b]) pop := by
  intro s b rest h
  cases s with
  | nil => cases h
  | cons b' s =>
    cases h
    exact ⟨[b], rfl, rfl, fun _ => rfl⟩

/-- As many bytes are read as are asked for. -/
theorem reads_popN (n : Nat) :
    Reads (fun bytes used => used = bytes ∧ bytes.length = n) (popN n) := by
  intro s bytes rest h
  unfold popN at h
  by_cases hlen : s.length < n
  · rw [if_pos hlen] at h
    cases h
  · rw [if_neg hlen] at h
    cases h
    have htake : (s.take n).length = n := List.length_take_of_le (Nat.le_of_not_lt hlen)
    refine ⟨s.take n, (List.take_append_drop n s).symm, ⟨rfl, htake⟩, fun more => ?_⟩
    have happend := popN_append (s.take n) more
    rwa [htake] at happend

/-- A smaller number takes no more bytes. -/
theorem length_putVarint_mono (k : Nat) {n m : Nat} (h : n ≤ m) :
    (putVarint k n).length ≤ (putVarint k m).length := by
  induction k generalizing n m with
  | zero => exact Nat.le_refl 0
  | succ k ih =>
    have htail := ih (Nat.div_le_div_right h (c := 128))
    rw [putVarint, putVarint]
    by_cases hm : m < 128
    · rw [if_pos hm, if_pos (Nat.lt_of_le_of_lt h hm)]
      exact Nat.le_refl 1
    · rw [if_neg hm]
      split
      · simp
      · rw [List.length_cons, List.length_cons]
        omega

/-- A number is written in no more groups than it was read from. -/
theorem reads_takeVarint (last k : Nat) :
    Reads (fun n used => (putVarint k n).length ≤ used.length) (takeVarint last k) := by
  induction k with
  | zero => exact .throw _
  | succ k ih =>
    refine reads_pop.bind (Q := fun b n used =>
      (putVarint (k + 1) n).length ≤ used.length + 1) (fun b => ?_) fun b n used used' hb hn => ?_
    · refine .ite (fun hlow => .ite (fun _ => .throw _) fun _ => .pure ?_) fun hhigh => ?_
      · rw [putVarint, if_pos hlow]
        exact Nat.le_refl 1
      · refine ih.bind (fun high => .pure (P := fun n used => n = b.toNat - 128 + 128 * high ∧
          used = []) ⟨rfl, rfl⟩) ?_
        rintro high n used _ hused ⟨rfl, rfl⟩
        have hb := b.toNat_lt
        rw [List.append_nil, putVarint]
        split
        · simp
        · rw [List.length_cons, show (b.toNat - 128 + 128 * high) / 128 = high by omega]
          omega
    · rw [hb, List.singleton_append, List.length_cons]
      exact hn

/-! ### Codecs -/

namespace Codec

/-- A value is written in no more bytes than it was read from. -/
def Frugal (c : Codec α) : Prop := Reads (fun a used => (c.put a).length ≤ used.length) c.take

variable {c : Codec α} {c' : Codec β}

/-- A codec for another type is as frugal, if equal values are written in no more bytes. -/
theorem Frugal.map (hc : c.Frugal) {f : α → β} {g : β → α} (hfg : ∀ b, f (g b) = b)
    (hgf : ∀ a, (c.put (g (f a))).length ≤ (c.put a).length) : (c.map f g hfg).Frugal :=
  Reads.map hc fun a _ h => Nat.le_trans (hgf a) h

/-- Pairs are frugal if both parts are. -/
theorem Frugal.prod (hc : c.Frugal) (hc' : c'.Frugal) : (c.prod c').Frugal := by
  refine Reads.bind hc (Q := fun a p used => p.1 = a ∧ (c'.put p.2).length ≤ used.length)
    (fun a => Reads.map hc' fun b used h => ⟨rfl, h⟩) ?_
  rintro a ⟨_, b⟩ used used' ha ⟨rfl, hb⟩
  show (c.put _ ++ c'.put b).length ≤ _
  rw [List.length_append, List.length_append]
  exact Nat.add_le_add ha hb

/-- A byte is written in one byte. -/
theorem frugal_byte : byte.Frugal := reads_pop.mono fun b used h => by rw [h]; exact Nat.le_refl 1

/-- A `u32` is written in the fewest bytes that it is read from. -/
theorem frugal_u32 : u32.Frugal := (reads_takeVarint 15 5).map fun n used h =>
  Nat.le_trans (length_putVarint_mono 5 (by
    rw [UInt32.toNat_ofNat']
    exact Nat.mod_le _ _)) h

/-- A `u64` is written in the fewest bytes that it is read from. -/
theorem frugal_u64 : u64.Frugal := (reads_takeVarint 1 10).map fun n used h =>
  Nat.le_trans (length_putVarint_mono 10 (by
    rw [UInt64.toNat_ofNat']
    exact Nat.mod_le _ _)) h

/-- The two conversions are inverse to each other. -/
theorem zigzag_unzigzag (m : UInt64) : zigzag (unzigzag m) = m := by
  have hm : m.toNat < 2 ^ 64 := m.toNat_lt
  have hval : (unzigzag m).toInt = if m.toNat % 2 = 0 then ((m.toNat / 2 : Nat) : Int)
      else -((m.toNat / 2 + 1 : Nat) : Int) := by
    unfold unzigzag
    refine Int64.toInt_ofInt_of_le ?_ ?_ <;> split <;> omega
  unfold zigzag
  rw [hval, ← UInt64.toNat_inj, UInt64.toNat_ofNat_of_lt']
  · split <;> split <;> omega
  · show _ < 2 ^ 64
    split <;> split <;> omega

/-- An `i64` is written in the fewest bytes that its zigzag is read from. -/
theorem frugal_i64 : i64.Frugal := frugal_u64.map unzigzag_zigzag fun m =>
  Nat.le_of_eq (by rw [zigzag_unzigzag])

/-- A `bool` is written in the byte that it is read from. -/
theorem frugal_bool : bool.Frugal :=
  reads_pop.bind (Q := fun _ _ used => used = [])
    (fun b => .ite (fun _ => .pure rfl) fun _ => .ite (fun _ => .pure rfl) fun _ => .throw _)
    fun b _ used used' hb _ => by
      rw [hb, List.length_append]
      exact Nat.le_add_right 1 _

/-- An option is written with one byte for its tag. -/
theorem Frugal.option (hc : c.Frugal) : c.option.Frugal := by
  refine reads_pop.bind (Q := fun _ a used => (c.option.put a).length ≤ used.length + 1)
    (fun b => .ite (fun _ => .pure (Nat.le_refl 1)) fun _ => .ite (fun _ => ?_) fun _ => .throw _)
    fun b a used used' hb ha => ?_
  · exact Reads.map hc fun a used h => Nat.succ_le_succ h
  · rw [hb, List.singleton_append, List.length_cons]
    exact ha

/-- A text is written with its length in the fewest bytes. -/
theorem frugal_string : string.Frugal := by
  refine Reads.bind frugal_u64 (Q := fun n text used => (Utf8.encode text).length = n.toNat ∧
    used = Utf8.encode text) (fun n => ?_) fun n text used used' hn htext => ?_
  · -- the text is made of the bytes that were announced
    refine (reads_popN n.toNat).bind (Q := fun bytes text used =>
      Utf8.encode text = bytes ∧ used = []) (fun bytes => ?_) ?_
    · cases htext : Utf8.decode bytes with
      | none => exact .throw _
      | some text => exact .pure ⟨Utf8.encode_of_decode htext, rfl⟩
    · rintro bytes text used _ ⟨rfl, hlen⟩ ⟨rfl, rfl⟩
      exact ⟨hlen, List.append_nil _⟩
  · obtain ⟨hlen, rfl⟩ := htext
    show (length.put _ ++ Utf8.encode text).length ≤ _
    rw [List.length_append, List.length_append, hlen, UInt64.ofNat_toNat]
    exact Nat.add_le_add_right hn _

/-- Many values, one after another. -/
theorem Frugal.takeMany (hc : c.Frugal) (n : Nat) : Reads (fun as used => as.length = n ∧
    (as.flatMap c.put).length ≤ used.length) (takeMany c n) := by
  induction n with
  | zero => exact .pure ⟨rfl, Nat.le_refl 0⟩
  | succ n ih =>
    refine Reads.bind hc (Q := fun a as used => ∃ rest, as = a :: rest ∧ rest.length = n ∧
      (rest.flatMap c.put).length ≤ used.length) (fun a => ?_) ?_
    · refine ih.bind (Q := fun rest as used => as = a :: rest ∧ used = [])
        (fun rest => .pure ⟨rfl, rfl⟩) ?_
      rintro rest as used _ ⟨hlen, hsize⟩ ⟨rfl, rfl⟩
      exact ⟨rest, rfl, hlen, by rwa [List.append_nil]⟩
    · rintro a _ used used' ha ⟨rest, rfl, hlen, hsize⟩
      rw [List.flatMap_cons, List.length_append, List.length_append, List.length_cons, hlen]
      exact ⟨rfl, Nat.add_le_add ha hsize⟩

/-- A sequence is written with its length in the fewest bytes. -/
theorem Frugal.seq (hc : c.Frugal) : c.seq.Frugal := by
  refine Reads.bind frugal_u64 (fun n => hc.takeMany n.toNat) fun n as used used' hn has => ?_
  show (length.put _ ++ as.flatMap c.put).length ≤ _
  rw [List.length_append, List.length_append, has.1, UInt64.ofNat_toNat]
  exact Nat.add_le_add hn has.2

/-- An enumeration is frugal if each of its variants is. -/
theorem frugal_enum {index : α → UInt32} {fields : α → List UInt8}
    {variant : UInt32 → Decoder α} {h : ∀ a rest, (fields a).length < 2 ^ 64 →
      variant (index a) (fields a ++ rest) = .ok (a, rest)}
    (hvariant : ∀ i, Reads (fun a used => index a = i ∧ (fields a).length ≤ used.length)
      (variant i)) : (enum index fields variant h).Frugal := by
  refine Reads.bind frugal_u32 hvariant fun i a used used' hi ha => ?_
  show (u32.put (index a) ++ fields a).length ≤ _
  rw [List.length_append, List.length_append, ha.1]
  exact Nat.add_le_add hi ha.2

/-- The variant that is read by its fields. -/
theorem Frugal.variant (hc : c.Frugal) {f : α → β} {index : β → UInt32}
    {fields : β → List UInt8} {i : UInt32} (hindex : ∀ a, index (f a) = i)
    (hfields : ∀ a, fields (f a) = c.put a) :
    Reads (fun b used => index b = i ∧ (fields b).length ≤ used.length) (f <$> c.take) :=
  Reads.map hc fun a used h => ⟨hindex a, by rwa [hfields]⟩

/-- A result is frugal if both of its sides are. -/
theorem Frugal.result (hc : c.Frugal) (hc' : c'.Frugal) : (c.result c').Frugal :=
  frugal_enum fun _ => .ite
    (fun hi => hc.variant (fun _ => hi.symm) fun _ => rfl)
    fun _ => .ite (fun hi => hc'.variant (fun _ => hi.symm) fun _ => rfl) fun _ => .throw _

end Codec

end Postcard
