import SpaceWasm.Lib.Leb128
import SpaceWasm.Splice

/-!
# The integers of the binary format

`read_u32`, `read_i32` and `read_i64` are three unrolled loops. `lebLoop` is the
loop they are unrollings of: bytes are read and their payloads accumulated until
one does not announce another, and the last byte of a maximal encoding is checked
on its own. What the loop finds in the bytes before the limit decides whether it
succeeds, and with which integer.
-/

namespace SpaceWasm

open Fallible Leb128

variable {α : Type}

/-! ### The bytes a decoder may read -/

/-- The bytes before the current limit. -/
def Reader.available (r : Reader) : List U8 := r.input.take (r.limit - r.offset)

/-- The error of a read past the available bytes. -/
def Reader.pastEnd (r : Reader) : ValidationError :=
  if r.limit ≤ r.offset + r.input.length then .eof else r.endError

/-- The view after the first `n` bytes of the input. -/
def Reader.afterBytes (r : Reader) (n : ℕ) : Reader.View :=
  { r.view with input := r.input.drop n, offset := r.offset + n }

theorem Reader.pastEnd_of_ending {r : Reader} (h : r.stream.ending = none) : r.pastEnd = .eof := by
  unfold pastEnd endError
  rw [h]
  split <;> rfl

theorem readU8_of_empty {r : Reader} (h : r.available = []) :
    ∃ t, readU8 r = .error r.pastEnd t := by
  unfold Reader.available at h
  unfold Reader.pastEnd
  rcases readU8_apply r with ⟨hle, hr⟩ | ⟨hlt, hinput, t, hr, -⟩ | ⟨hlt, b, bs, -, hinput, -⟩
  · exact ⟨r, by rw [if_pos (by omega), hr]⟩
  · exact ⟨t, by rw [hinput, if_neg (by simpa using hlt), hr]⟩
  · rw [hinput, List.take_eq_nil_iff] at h
    rcases h with h | h
    · omega
    · cases h

theorem readU8_of_available {r : Reader} {b : U8} {bs : List U8} (h : r.available = b :: bs) :
    ∃ t, readU8 r = .ok b t ∧ t.available = bs ∧ t.view = r.afterBytes 1 ∧
      t.pastEnd = r.pastEnd := by
  unfold Reader.available at h
  rcases readU8_apply r with ⟨hle, -⟩ | ⟨-, hinput, -⟩ | ⟨hlt, c, cs, t, hinput, hr, hview⟩
  · rw [Nat.sub_eq_zero_of_le hle, List.take_zero] at h
    cases h
  · rw [hinput, List.take_nil] at h
    cases h
  · obtain ⟨n, hn⟩ : ∃ n, r.limit - r.offset = n + 1 := ⟨r.limit - r.offset - 1, by omega⟩
    rw [hinput, hn, List.take_succ_cons] at h
    obtain ⟨rfl, rfl⟩ := List.cons.inj h
    have hview' : t.view = r.afterBytes 1 := by
      rw [hview, Reader.afterBytes, hinput]
      rfl
    have hin : t.input = cs := congrArg Reader.View.input hview
    have hoffset : t.offset = r.offset + 1 := congrArg Reader.View.offset hview
    have hlimit : t.limit = r.limit := congrArg Reader.View.limit hview
    have hending : t.stream.ending = r.stream.ending := congrArg Reader.View.ending hview
    refine ⟨t, hr, ?_, hview', ?_⟩
    · rw [Reader.available, hin, hoffset, hlimit, show r.limit - (r.offset + 1) = n by omega]
    · rw [Reader.pastEnd, Reader.pastEnd, Reader.endError, Reader.endError, hending, hin, hoffset,
        hlimit, hinput, List.length_cons]
      simp only [Nat.add_assoc, Nat.add_comm 1]

/-! ### The loop -/

/-- The loop with `k` bytes before the last one of a maximal encoding. `short` makes
the result of an encoding that ends early, of its bits and their number; `last`
checks the last byte of a maximal one. -/
def lebLoop (short : ℕ → ℕ → α) (last : ℕ → ℕ → U8 → Except ValidationError α) :
    (k acc shift : ℕ) → ReaderM α
  | 0, acc, shift => do
      let b ← readU8
      ofExcept (last acc shift b)
  | k + 1, acc, shift => do
      let b ← readU8
      let acc := acc + lebPayload b * 2 ^ shift
      if lebContinues b = false then pure (short acc (shift + 7))
      else lebLoop short last k acc (shift + 7)

theorem lebContinues_eq_false {b : U8} : lebContinues b = false ↔ ¬Continues b := by
  simp [lebContinues, Continues]

theorem Reader.afterBytes_of_view {r t : Reader} {n : ℕ} (h : t.view = r.afterBytes 1) :
    t.afterBytes n = r.afterBytes (n + 1) := by
  have hinput : t.input = r.input.drop 1 := congrArg View.input h
  have hoffset : t.offset = r.offset + 1 := congrArg View.offset h
  unfold afterBytes
  rw [h, hinput, hoffset, List.drop_drop, Nat.add_comm 1 n, Nat.add_assoc, Nat.add_comm 1 n]
  rfl

/-- What the loop does: it ends at a byte that announces no other one, at the last
byte of a maximal encoding, or at the end of the available bytes. -/
theorem lebLoop_apply (short : ℕ → ℕ → α) (last : ℕ → ℕ → U8 → Except ValidationError α)
    (k acc shift : ℕ) (r : Reader) :
    (∃ front b rest t, r.available = front ++ b :: rest ∧ (∀ c ∈ front, Continues c) ∧
        front.length < k ∧ ¬Continues b ∧
        lebLoop short last k acc shift r = .ok (short (acc + payload (front ++ [b]) * 2 ^ shift)
          (shift + 7 * (front.length + 1))) t ∧ t.view = r.afterBytes (front.length + 1)) ∨
      (∃ front b rest t, r.available = front ++ b :: rest ∧ (∀ c ∈ front, Continues c) ∧
        front.length = k ∧ lebLoop short last k acc shift r =
          ofExcept (last (acc + payload front * 2 ^ shift) (shift + 7 * k) b) t ∧
        t.view = r.afterBytes (k + 1)) ∨
      ((∀ c ∈ r.available, Continues c) ∧ r.available.length ≤ k ∧
        ∃ t, lebLoop short last k acc shift r = .error r.pastEnd t) := by
  induction k generalizing acc shift r with
  | zero =>
      unfold lebLoop
      cases havailable : r.available with
      | nil =>
          obtain ⟨t, hr⟩ := readU8_of_empty havailable
          exact Or.inr (Or.inr ⟨nofun, Nat.le_refl 0, t, bind_of_error hr⟩)
      | cons b bs =>
          obtain ⟨t, hr, -, hview, -⟩ := readU8_of_available havailable
          refine Or.inr (Or.inl ⟨[], b, bs, t, rfl, nofun, rfl, ?_, hview⟩)
          rw [bind_of_ok hr]
          simp
  | succ k ih =>
      unfold lebLoop
      cases havailable : r.available with
      | nil =>
          obtain ⟨t, hr⟩ := readU8_of_empty havailable
          exact Or.inr (Or.inr ⟨nofun, Nat.zero_le _, t, bind_of_error hr⟩)
      | cons b bs =>
          obtain ⟨u, hr, hbs, hview, hend⟩ := readU8_of_available havailable
          rw [bind_of_ok hr]
          by_cases hb : Continues b
          · rw [if_neg (fun h => lebContinues_eq_false.1 h hb)]
            have hpayload : ∀ cs : List U8, acc + lebPayload b * 2 ^ shift +
                payload cs * 2 ^ (shift + 7) = acc + payload (b :: cs) * 2 ^ shift := by
              intro cs
              rw [payload_cons, lebPayload, Nat.pow_add]
              ring
            rcases ih (acc + lebPayload b * 2 ^ shift) (shift + 7) u with
              ⟨front, c, rest, t, havail, hfront, hlt, hc, hloop, ht⟩ |
                ⟨front, c, rest, t, havail, hfront, hlen, hloop, ht⟩ | ⟨hall, hle, t, hloop⟩
            · refine Or.inl ⟨b :: front, c, rest, t, ?_, List.forall_mem_cons.2 ⟨hb, hfront⟩,
                Nat.succ_lt_succ hlt, hc, ?_, ?_⟩
              · rw [← hbs, havail, List.cons_append]
              · rw [hloop, hpayload, List.length_cons, List.cons_append]
                congr 2
                omega
              · rw [ht, Reader.afterBytes_of_view hview, List.length_cons]
            · refine Or.inr (Or.inl ⟨b :: front, c, rest, t, ?_,
              List.forall_mem_cons.2 ⟨hb, hfront⟩,
                congrArg (· + 1) hlen, ?_, ?_⟩)
              · rw [← hbs, havail, List.cons_append]
              · rw [hloop, hpayload]
                congr 2
                omega
              · rw [ht, Reader.afterBytes_of_view hview]
            · refine Or.inr (Or.inr ⟨?_, ?_, t, ?_⟩)
              · rw [← hbs]
                exact List.forall_mem_cons.2 ⟨hb, hall⟩
              · rw [← hbs]
                exact Nat.succ_le_succ hle
              · rw [hloop, hend]
          · rw [if_pos (lebContinues_eq_false.2 hb)]
            refine Or.inl ⟨[], b, bs, u, rfl, nofun, Nat.succ_pos k, hb, ?_, hview⟩
            simp [lebPayload]

/-! ### Exact decoders -/

/-- On `r` the decoder `x` accepts exactly the encodings among the available bytes,
of at most `maxBytes` bytes each. -/
structure Reader.Decodes {β : Type} (x : ReaderM α) (maxBytes : ℕ) (Encodes : List U8 → β → Prop)
    (value : α → β) (r : Reader) : Prop where
  /-- An encoding is decoded, and only its bytes are consumed. -/
  accepts : ∀ bs v, bs <+: r.available → Encodes bs v →
    ∃ a t, x r = .ok a t ∧ value a = v ∧ t.view = r.afterBytes bs.length
  /-- What is decoded was encoded. -/
  accepted : ∀ a t, x r = .ok a t →
    ∃ bs, bs <+: r.available ∧ Encodes bs (value a) ∧ t.view = r.afterBytes bs.length
  /-- Everything else is an error, which tells a bad encoding from one cut short. -/
  rejects : (∀ bs v, bs <+: r.available → ¬Encodes bs v) →
    ∃ t, x r = .error (if r.available.length < maxBytes ∧ ∀ c ∈ r.available, Continues c
      then r.pastEnd else .malformedInteger) t

/-- The loop is exact if its two ways of making a result are. -/
theorem lebLoop_decodes {β : Type} {Encodes : List U8 → β → Prop} {value : α → β} {k : ℕ}
    {short : ℕ → ℕ → α} {last : ℕ → ℕ → U8 → Except ValidationError α}
    (hterminated : ∀ bs v, Encodes bs v → Terminated bs)
    (hshort : ∀ front b v, (∀ c ∈ front, Continues c) → front.length < k → ¬Continues b →
      (Encodes (front ++ [b]) v ↔
        v = value (short (payload (front ++ [b])) (7 * (front.length + 1)))))
    (hlast : ∀ front b v, (∀ c ∈ front, Continues c) → front.length = k →
      (Encodes (front ++ [b]) v ↔ ∃ a, last (payload front) (7 * k) b = .ok a ∧ v = value a))
    (hlong : ∀ bs v, Encodes bs v → bs.length ≤ k + 1)
    (herror : ∀ acc shift b e, last acc shift b = .error e → e = .malformedInteger)
    (r : Reader) : r.Decodes (lebLoop short last k 0 0) (k + 1) Encodes value := by
  rcases lebLoop_apply short last k 0 0 r with
    ⟨front, b, rest, t, havail, hfront, hlt, hb, hloop, hview⟩ |
      ⟨front, b, rest, t, havail, hfront, hlen, hloop, hview⟩ | ⟨hall, hle, t, hloop⟩
  · -- an encoding that ends early
    have hprefix : front ++ [b] <+: r.available := ⟨rest, by rw [havail]; simp⟩
    have henc := (hshort front b _ hfront hlt hb).2 rfl
    simp only [Nat.zero_add, Nat.pow_zero, Nat.mul_one] at hloop
    have hlength : (front ++ [b]).length = front.length + 1 := by simp
    constructor
    · intro bs v hbs hv
      rw [havail] at hbs
      obtain rfl := (hterminated bs v hv).eq_of_ends hbs hfront hb
      exact ⟨_, t, hloop, ((hshort front b v hfront hlt hb).1 hv).symm, by rw [hview, hlength]⟩
    · intro a u hu
      rw [hloop] at hu
      cases hu
      exact ⟨front ++ [b], hprefix, henc, by rw [hview, hlength]⟩
    · intro hnone
      exact absurd henc (hnone _ _ hprefix)
  · -- the last byte of a maximal one
    have hprefix : front ++ [b] <+: r.available := ⟨rest, by rw [havail]; simp⟩
    have hlength : (front ++ [b]).length = k + 1 := by simp [hlen]
    simp only [Nat.zero_add, Nat.pow_zero, Nat.mul_one] at hloop
    have hle : ¬r.available.length < k + 1 := by
      rw [havail, List.length_append, List.length_cons]
      omega
    constructor
    · intro bs v hbs hv
      rw [havail] at hbs
      obtain rfl : bs = front ++ [b] := by
        rcases (hterminated bs v hv).eq_or_longer hbs hfront with h | h
        · exact h
        · have := hlong bs v hv
          omega
      obtain ⟨a, ha, rfl⟩ := (hlast front b v hfront hlen).1 hv
      rw [ha] at hloop
      exact ⟨a, t, hloop, rfl, by rw [hview, hlength]⟩
    · intro a u hu
      rw [hloop, ofExcept_eq_ok] at hu
      obtain ⟨ha, rfl⟩ := hu
      exact ⟨front ++ [b], hprefix, (hlast front b _ hfront hlen).2 ⟨a, ha, rfl⟩, by
        rw [hview, hlength]⟩
    · intro hnone
      cases ha : last (payload front) (7 * k) b with
      | ok a => exact absurd ((hlast front b _ hfront hlen).2 ⟨a, ha, rfl⟩) (hnone _ _ hprefix)
      | error e =>
          rw [ha, herror _ _ _ _ ha] at hloop
          rw [if_neg fun h => hle h.1]
          exact ⟨t, hloop⟩
  · -- no byte ends it
    constructor
    · intro bs v hbs hv
      obtain ⟨front, b, rfl, -, hb⟩ := hterminated bs v hv
      exact absurd (hall b (hbs.subset (by simp))) hb
    · intro a u hu
      rw [hloop] at hu
      cases hu
    · intro _
      rw [if_pos ⟨by omega, hall⟩]
      exact ⟨t, hloop⟩

/-! ### The three decoders -/

theorem readU32_eq : readU32 = lebLoop (fun acc _ => BitVec.ofNat 32 acc)
    (fun acc shift b =>
      if b &&& 0xF0#8 = 0#8 then .ok (BitVec.ofNat 32 (acc + lebPayload b * 2 ^ shift))
      else .error .malformedInteger) 4 0 0 := by
  unfold readU32
  simp only [lebLoop, Nat.zero_add, Nat.pow_zero, Nat.mul_one, apply_ite, ofExcept_ok,
    ofExcept_error]

/-- The last byte of a maximal signed integer of `w` bits. -/
def lebLast (w : ℕ) (mask : U8) (acc shift : ℕ) (b : U8) : Except ValidationError (BitVec w) :=
  if lebContinues b then .error .malformedInteger
  else if b &&& mask = mask ∨ b &&& mask = 0#8 then
    .ok (BitVec.ofNat w (acc + lebPayload b * 2 ^ shift))
  else .error .malformedInteger

theorem lebLast_eq (w acc shift : ℕ) (mask : U8) :
    (do let b ← readU8
        ofExcept (lebLast w mask acc shift b)) =
      (do let r ← readLebLast acc shift mask
          return BitVec.ofNat w r) := by
  unfold readLebLast
  rw [bind_assoc]
  congr 1
  funext b
  unfold lebLast
  split
  · rfl
  · split <;> rfl

theorem readI32_eq :
    readI32 = lebLoop (fun acc bits => lebSignExtend 32 bits acc) (lebLast 32 0x78#8) 4 0 0 := by
  unfold readI32 readLebByte
  simp only [lebLoop, lebLast_eq, bind_assoc, pure_bind, Nat.zero_add, Nat.reduceAdd, Nat.pow_zero,
    Nat.mul_one]

theorem readI64_eq :
    readI64 = lebLoop (fun acc bits => lebSignExtend 64 bits acc) (lebLast 64 0x7F#8) 9 0 0 := by
  unfold readI64 readLebByte
  simp only [lebLoop, lebLast_eq, bind_assoc, pure_bind, Nat.zero_add, Nat.reduceAdd, Nat.pow_zero,
    Nat.mul_one]

theorem payload_snoc (front : List U8) (b : U8) :
    payload front + lebPayload b * 2 ^ (7 * front.length) = payload (front ++ [b]) := by
  rw [payload_append]
  simp [lebPayload]

theorem readU32_decodes (r : Reader) : r.Decodes readU32 5 (EncodesU 32) BitVec.toNat := by
  have hpad : ∀ b : U8, b &&& 0xF0#8 = 0#8 ↔ b.toNat < 2 ^ 4 := by decide
  have hiff : ∀ {front b v}, (∀ c ∈ front, Continues c) → (EncodesU 32 (front ++ [b]) v ↔
      v = payload (front ++ [b]) ∧
        (front.length < 4 ∧ ¬Continues b ∨ front.length = 4 ∧ b.toNat < 2 ^ 4)) :=
    fun hfront => @encodesU_iff 4 4 _ _ _ (by decide) (by decide) hfront
  have hvalue : ∀ bs, payload bs < 2 ^ 32 → (BitVec.ofNat 32 (payload bs)).toNat = payload bs :=
    fun bs h => Nat.mod_eq_of_lt h
  rw [readU32_eq]
  refine lebLoop_decodes (fun bs v h => h.terminated) ?_ ?_ ?_ ?_ r
  · intro front b v hfront hlt hb
    have hbound := payload_lt (front ++ [b])
    have hpow : 2 ^ (7 * (front ++ [b]).length) ≤ 2 ^ 32 := by
      rw [List.length_append, List.length_singleton]
      exact Nat.pow_le_pow_right (by decide) (by omega)
    rw [hiff hfront, hvalue _ (Nat.lt_of_lt_of_le hbound hpow)]
    exact and_iff_left (Or.inl ⟨hlt, hb⟩)
  · intro front b v hfront hlen
    have hsnoc := payload_snoc front b
    rw [hlen] at hsnoc
    rw [hiff hfront, hsnoc, ← hpad]
    by_cases hb : b &&& 0xF0#8 = 0#8
    · have hbound := payload_lt front
      rw [hlen] at hbound
      have hb' := (hpad b).1 hb
      have hlt : payload (front ++ [b]) < 2 ^ 32 := by
        rw [← hsnoc, lebPayload]
        omega
      simp [hb, hlen, hvalue _ hlt]
    · simp [hb, hlen]
  · intro bs v h
    obtain ⟨front, b, rfl, hfront, -⟩ := h.terminated
    have hcases := ((hiff hfront).1 h).2
    rw [List.length_append, List.length_singleton]
    rcases hcases with ⟨h, -⟩ | ⟨h, -⟩ <;> omega
  · intro acc shift b e h
    split at h
    · cases h
    · exact (Except.error.inj h).symm

/-- A bit vector read as a two's complement number. -/
theorem toInt_ofNat_eq {w n : ℕ} {v c : ℤ} (hlo : -(2 : ℤ) ^ w ≤ v * 2) (hhi : v * 2 < (2 : ℤ) ^ w)
    (hn : v = n + c * 2 ^ w) : (BitVec.ofNat w n).toInt = v := by
  have hn' : (n : ℤ) = v + -c * ((2 ^ w : ℕ) : ℤ) := by
    rw [hn]
    push_cast
    ring
  rw [BitVec.toInt_ofNat', hn', Int.add_mul_bmod_self_right]
  exact Int.bmod_eq_of_le_mul_two (by push_cast; exact hlo) (by push_cast; exact hhi)

/-- Shifting to the left and back reads the low bits as a signed number. -/
theorem toInt_lebSignExtend {w bits n : ℕ} {v c : ℤ} (hbits : 0 < bits) (hw : bits ≤ w)
    (hlo : -(2 : ℤ) ^ (bits - 1) ≤ v) (hhi : v < (2 : ℤ) ^ (bits - 1))
    (hn : v = n + c * 2 ^ bits) : (lebSignExtend w bits n).toInt = v := by
  obtain ⟨d, rfl⟩ : ∃ d, w = bits + d := ⟨w - bits, by omega⟩
  have hpow : (2 : ℤ) ^ (bits + d) = 2 ^ bits * 2 ^ d := pow_add 2 bits d
  have hhalf : (2 : ℤ) ^ bits = 2 ^ (bits - 1) * 2 := by
    rw [← pow_succ, Nat.sub_add_cancel hbits]
  have htotal : (2 : ℤ) ^ (bits + d) = 2 ^ (bits - 1) * 2 ^ d * 2 := by
    rw [hpow, hhalf]
    ring
  have hpos : (0 : ℤ) < 2 ^ d := pow_pos (by decide) d
  have hlo' := Int.mul_le_mul_of_nonneg_right hlo (Int.le_of_lt hpos)
  have hhi' := Int.mul_lt_mul_of_pos_right hhi hpos
  rw [Int.neg_mul] at hlo'
  have hleft : BitVec.ofNat (bits + d) n <<< d = BitVec.ofNat (bits + d) (n * 2 ^ d) := by
    apply BitVec.eq_of_toNat_eq
    rw [BitVec.toNat_shiftLeft, BitVec.toNat_ofNat, BitVec.toNat_ofNat, Nat.shiftLeft_eq,
      Nat.mod_mul_mod]
  have hshift : (BitVec.ofNat (bits + d) n <<< d).toInt = v * 2 ^ d := by
    rw [hleft]
    refine @toInt_ofNat_eq _ _ _ c ?_ ?_ ?_
    · rw [htotal]
      omega
    · rw [htotal]
      omega
    · rw [hn, hpow]
      push_cast
      ring
  rw [lebSignExtend, Nat.add_sub_cancel_left, BitVec.toInt_sshiftRight, hshift,
    Int.shiftRight_eq_div_pow]
  push_cast
  exact Int.mul_ediv_cancel v (Int.ne_of_gt hpos)

/-- A signed decoder of `7 * k + m` bits is exact. -/
theorem lebLoop_signed {k m : ℕ} {mask : U8} (hm : 0 < m) (hm' : m ≤ 7)
    (hmask : ∀ b : U8, ¬Continues b → ((b &&& mask = mask ∨ b &&& mask = 0#8) ↔
      (b.toNat < 2 ^ (m - 1) ∨ 128 ≤ b.toNat + 2 ^ (m - 1)))) (r : Reader) :
    r.Decodes (lebLoop (fun acc bits => lebSignExtend (7 * k + m) bits acc)
      (lebLast (7 * k + m) mask)
      k 0 0) (k + 1) (EncodesS (7 * k + m)) BitVec.toInt := by
  refine lebLoop_decodes (fun bs v h => h.terminated) ?_ ?_ ?_ ?_ r
  · intro front b v hfront hlt hb
    have hlength : (front ++ [b]).length = front.length + 1 := by simp
    obtain ⟨hlo, hhi, c, hc⟩ := signedPayload_spec (show front ++ [b] ≠ [] by simp)
    rw [hlength] at hlo hhi hc
    rw [encodesS_iff hm hm' hfront, toInt_lebSignExtend (by omega) (by omega) hlo hhi hc]
    exact and_iff_left (Or.inl ⟨hlt, hb⟩)
  · intro front b v hfront hlen
    have hsnoc := payload_snoc front b
    rw [hlen] at hsnoc
    have hencodes := @encodesS_iff k m (signedPayload (front ++ [b])) front b hm hm' hfront
    unfold lebLast
    rw [encodesS_iff hm hm' hfront, hsnoc]
    by_cases hb : Continues b
    · have hcont : lebContinues b = true := decide_eq_true hb
      simp [hb, hcont]
    · rw [if_neg (by rw [lebContinues_eq_false.2 hb]; decide), ← hmask b hb]
      by_cases hpad : b &&& mask = mask ∨ b &&& mask = 0#8
      · have henc := hencodes.2 ⟨rfl, Or.inr ⟨hlen, hb, (hmask b hb).1 hpad⟩⟩
        obtain ⟨-, -, c, hc⟩ := signedPayload_spec (show front ++ [b] ≠ [] by simp)
        have hlength : (front ++ [b]).length = k + 1 := by simp [hlen]
        obtain ⟨d, hd⟩ : ∃ d, 7 * (k + 1) = 7 * k + m + d := ⟨7 - m, by omega⟩
        have hvalue : (BitVec.ofNat (7 * k + m) (payload (front ++ [b]))).toInt =
            signedPayload (front ++ [b]) := by
          have hhalf : (2 : ℤ) ^ (7 * k + m) = 2 ^ (7 * k + m - 1) * 2 := by
            rw [← pow_succ, Nat.sub_add_cancel (by omega)]
          have hbounds := henc.bounds
          refine @toInt_ofNat_eq _ _ _ (c * 2 ^ d) (by omega) (by omega) ?_
          rw [hc, hlength, hd, pow_add]
          ring
        simp [hb, hlen, hpad, hvalue]
      · simp [hb, hlen, hpad]
  · intro bs v h
    obtain ⟨front, b, rfl, hfront, -⟩ := h.terminated
    have hcases := ((encodesS_iff hm hm' hfront).1 h).2
    rw [List.length_append, List.length_singleton]
    rcases hcases with ⟨h, -⟩ | ⟨h, -⟩ <;> omega
  · intro acc shift b e h
    unfold lebLast at h
    split at h
    · exact (Except.error.inj h).symm
    · split at h
      · cases h
      · exact (Except.error.inj h).symm

theorem readI32_decodes (r : Reader) : r.Decodes readI32 5 (EncodesS 32) BitVec.toInt := by
  rw [readI32_eq]
  exact @lebLoop_signed 4 4 0x78#8 (by decide) (by decide) (by decide) r

theorem readI64_decodes (r : Reader) : r.Decodes readI64 10 (EncodesS 64) BitVec.toInt := by
  rw [readI64_eq]
  exact @lebLoop_signed 9 1 0x7F#8 (by decide) (by decide) (by decide) r

/-- The three decoders accept exactly the encodings of the integers of their types,
padded ones included, and every integer has one of every length that has room for it. -/
theorem leb128_exact :
    (∀ r : Reader, r.Decodes readU32 5 (EncodesU 32) BitVec.toNat ∧
      r.Decodes readI32 5 (EncodesS 32) BitVec.toInt ∧
      r.Decodes readI64 10 (EncodesS 64) BitVec.toInt) ∧
    (∀ r : Reader, r.stream.ending = none → r.pastEnd = .eof) ∧
    (∀ n k : ℕ, n < 2 ^ 32 → k < 5 → n < 2 ^ (7 * (k + 1)) →
      ∃ bs, bs.length = k + 1 ∧ EncodesU 32 bs n) ∧
    (∀ (v : ℤ) (k : ℕ), -2 ^ 31 ≤ v → v < 2 ^ 31 → k < 5 → -2 ^ (7 * k + 6) ≤ v →
      v < 2 ^ (7 * k + 6) → ∃ bs, bs.length = k + 1 ∧ EncodesS 32 bs v) ∧
    ∀ (v : ℤ) (k : ℕ), -2 ^ 63 ≤ v → v < 2 ^ 63 → k < 10 → -2 ^ (7 * k + 6) ≤ v →
      v < 2 ^ (7 * k + 6) → ∃ bs, bs.length = k + 1 ∧ EncodesS 64 bs v := by
  refine ⟨fun r => ⟨readU32_decodes r, readI32_decodes r, readI64_decodes r⟩,
    fun r => Reader.pastEnd_of_ending, ?_, ?_, ?_⟩
  · intro n k hn hk hlt
    exact exists_encodesU (by omega) hn hlt
  · intro v k hlo hhi hk hlo' hhi'
    exact exists_encodesS (by omega) ⟨hlo, hhi⟩ ⟨hlo', hhi'⟩
  · intro v k hlo hhi hk hlo' hhi'
    exact exists_encodesS (by omega) ⟨hlo, hhi⟩ ⟨hlo', hhi'⟩

end SpaceWasm
