import Mathlib.Algebra.Order.Ring.Int
import Mathlib.Data.Nat.Notation
import Mathlib.Tactic.Ring

/-!
# LEB128

The encodings of integers in groups of seven bits, lowest group first. Every byte
but the last has its high bit set. An encoding of an integer of `N` bits uses no
bit beyond the `N`-th, except for copies of the sign; it need not be the shortest
one.

The relations `EncodesU` and `EncodesS` follow the byte grammar. Along the bytes
`payload` and `signedPayload` compute the integer, and the iff lemmas say which
byte strings are encodings.
-/

namespace Leb128

/-- The bytes that announce another one. -/
def Continues (b : BitVec 8) : Prop := 128 ≤ b.toNat

instance (b : BitVec 8) : Decidable (Continues b) := inferInstanceAs (Decidable (_ ≤ _))

/-- `EncodesU N bs n`: the bytes encode the unsigned integer `n` of `N` bits. -/
inductive EncodesU : ℕ → List (BitVec 8) → ℕ → Prop where
  | last {N : ℕ} {b : BitVec 8} : ¬Continues b → b.toNat < 2 ^ N → EncodesU N [b] b.toNat
  | more {N n : ℕ} {b : BitVec 8} {bs : List (BitVec 8)} : 0 < N → Continues b →
      EncodesU N bs n → EncodesU (N + 7) (b :: bs) (b.toNat - 128 + 128 * n)

/-- `EncodesS N bs v`: the bytes encode the signed integer `v` of `N` bits. -/
inductive EncodesS : ℕ → List (BitVec 8) → ℤ → Prop where
  | nonneg {N : ℕ} {b : BitVec 8} : b.toNat < 64 → b.toNat < 2 ^ (N - 1) →
      EncodesS N [b] b.toNat
  | neg {N : ℕ} {b : BitVec 8} : 64 ≤ b.toNat → ¬Continues b → 128 ≤ b.toNat + 2 ^ (N - 1) →
      EncodesS N [b] (b.toNat - 128)
  | more {N : ℕ} {v : ℤ} {b : BitVec 8} {bs : List (BitVec 8)} : 0 < N → Continues b →
      EncodesS N bs v → EncodesS (N + 7) (b :: bs) (b.toNat - 128 + 128 * v)

/-- The groups of seven bits, put together. -/
def payload : List (BitVec 8) → ℕ
  | [] => 0
  | b :: bs => b.toNat % 128 + 128 * payload bs

/-- The same with the highest bit as the sign. -/
def signedPayload : List (BitVec 8) → ℤ
  | [] => 0
  | [b] => if b.toNat % 128 < 64 then b.toNat % 128 else b.toNat % 128 - 128
  | b :: bs => b.toNat % 128 + 128 * signedPayload bs

@[simp] theorem payload_nil : payload [] = 0 := rfl

@[simp] theorem payload_cons (b : BitVec 8) (bs : List (BitVec 8)) :
    payload (b :: bs) = b.toNat % 128 + 128 * payload bs := rfl

theorem payload_append (bs cs : List (BitVec 8)) :
    payload (bs ++ cs) = payload bs + payload cs * 2 ^ (7 * bs.length) := by
  induction bs with
  | nil => simp
  | cons b bs ih =>
      have hpow : 2 ^ (7 * (b :: bs).length) = 128 * 2 ^ (7 * bs.length) := by
        rw [List.length_cons, Nat.mul_succ, Nat.pow_add]
        omega
      rw [List.cons_append, payload_cons, payload_cons, ih, hpow]
      ring

theorem payload_lt (bs : List (BitVec 8)) : payload bs < 2 ^ (7 * bs.length) := by
  induction bs with
  | nil => simp
  | cons b bs ih =>
      have hpow : 2 ^ (7 * (b :: bs).length) = 128 * 2 ^ (7 * bs.length) := by
        rw [List.length_cons, Nat.mul_succ, Nat.pow_add]
        omega
      have hb := Nat.mod_lt b.toNat (show 0 < 128 by decide)
      rw [payload_cons, hpow]
      omega

theorem signedPayload_singleton (b : BitVec 8) :
    signedPayload [b] = if b.toNat % 128 < 64 then (b.toNat : ℤ) % 128 else b.toNat % 128 - 128 :=
  rfl

theorem signedPayload_cons (b : BitVec 8) {bs : List (BitVec 8)} (h : bs ≠ []) :
    signedPayload (b :: bs) = (b.toNat : ℤ) % 128 + 128 * signedPayload bs := by
  cases bs with
  | nil => exact absurd rfl h
  | cons c bs => rfl

/-- The signed value is the payload, read as a two's complement number. -/
theorem signedPayload_spec {bs : List (BitVec 8)} (h : bs ≠ []) :
    -(2 : ℤ) ^ (7 * bs.length - 1) ≤ signedPayload bs ∧
      signedPayload bs < (2 : ℤ) ^ (7 * bs.length - 1) ∧
      ∃ c : ℤ, signedPayload bs = payload bs + c * 2 ^ (7 * bs.length) := by
  induction bs with
  | nil => exact absurd rfl h
  | cons b bs ih =>
      by_cases hbs : bs = []
      · subst hbs
        rw [signedPayload_singleton]
        simp only [payload_cons, payload_nil, List.length_singleton]
        split
        · exact ⟨by omega, by omega, 0, by push_cast; ring⟩
        · exact ⟨by omega, by omega, -1, by push_cast; ring⟩
      · obtain ⟨hlo, hhi, c, hc⟩ := ih hbs
        have hpos := List.length_pos_iff.2 hbs
        have hpow : (2 : ℤ) ^ (7 * (b :: bs).length - 1) = 128 * 2 ^ (7 * bs.length - 1) := by
          rw [List.length_cons,
            show 7 * (bs.length + 1) - 1 = 7 * bs.length - 1 + 7 by omega, pow_add]
          ring
        have hpow' : (2 : ℤ) ^ (7 * (b :: bs).length) = 128 * 2 ^ (7 * bs.length) := by
          rw [List.length_cons, Nat.mul_succ, pow_add]
          ring
        rw [signedPayload_cons b hbs, hpow, hpow']
        refine ⟨by omega, by omega, c, ?_⟩
        rw [hc, payload_cons]
        push_cast
        ring

/-! ### Which bytes are encodings -/

/-- All bytes but the last announce another one. -/
def Terminated (bs : List (BitVec 8)) : Prop :=
  ∃ front last, bs = front ++ [last] ∧ (∀ b ∈ front, Continues b) ∧ ¬Continues last

/-- A terminated string is determined by any string that it is a prefix of. -/
theorem Terminated.eq_or_longer {bs front : List (BitVec 8)} {b : BitVec 8}
    {rest : List (BitVec 8)} (h : Terminated bs) (hpre : bs <+: front ++ b :: rest)
    (hfront : ∀ c ∈ front, Continues c) :
    bs = front ++ [b] ∨ front.length + 1 < bs.length := by
  obtain ⟨front', last, rfl, hfront', hlast⟩ := h
  induction front generalizing front' with
  | nil =>
      cases front' with
      | nil =>
          obtain ⟨_, hrest⟩ := hpre
          cases hrest
          exact Or.inl rfl
      | cons c front' =>
          exact Or.inr (by simp)
  | cons c front ih =>
      cases front' with
      | nil =>
          obtain ⟨_, hrest⟩ := hpre
          cases hrest
          exact absurd (hfront _ List.mem_cons_self) hlast
      | cons d front' =>
          rw [List.cons_append, List.cons_append, List.cons_prefix_cons] at hpre
          obtain ⟨rfl, hpre⟩ := hpre
          rcases ih (fun c hc => hfront c (List.mem_cons_of_mem _ hc)) front' hpre
            (fun c hc => hfront' c (List.mem_cons_of_mem _ hc)) with heq | hlt
          · exact Or.inl (congrArg (d :: ·) heq)
          · exact Or.inr (by simpa using hlt)

/-- A terminated string is a prefix only of strings that go on after its last byte. -/
theorem Terminated.eq_of_ends {bs front : List (BitVec 8)} {b : BitVec 8}
    {rest : List (BitVec 8)} (h : Terminated bs) (hpre : bs <+: front ++ b :: rest)
    (hfront : ∀ c ∈ front, Continues c) (hb : ¬Continues b) : bs = front ++ [b] := by
  rcases h.eq_or_longer hpre hfront with heq | hlt
  · exact heq
  · obtain ⟨front', last, rfl, hfront', -⟩ := h
    obtain ⟨tail, htail⟩ := hpre
    rw [List.length_append, List.length_singleton] at hlt
    have hget := congrArg (fun bs => bs[front.length]?) htail
    rw [List.append_assoc, List.getElem?_append_left (Nat.lt_of_succ_lt_succ hlt),
      List.getElem?_append_right (Nat.le_refl _), Nat.sub_self, List.getElem?_cons_zero] at hget
    exact absurd (hfront' b (List.mem_of_getElem? hget)) hb

theorem EncodesU.terminated {N n : ℕ} {bs : List (BitVec 8)} (h : EncodesU N bs n) :
    Terminated bs := by
  induction h with
  | @last N b hb => exact ⟨[], b, rfl, nofun, hb⟩
  | @more N n b bs hN hb h ih =>
      obtain ⟨front, last, rfl, hfront, hlast⟩ := ih
      exact ⟨b :: front, last, rfl, List.forall_mem_cons.2 ⟨hb, hfront⟩, hlast⟩

theorem EncodesS.terminated {N : ℕ} {v : ℤ} {bs : List (BitVec 8)} (h : EncodesS N bs v) :
    Terminated bs := by
  induction h with
  | @nonneg N b hb => exact ⟨[], b, rfl, nofun, by unfold Continues; omega⟩
  | @neg N b _ hb => exact ⟨[], b, rfl, nofun, hb⟩
  | @more N v b bs hN hb h ih =>
      obtain ⟨front, last, rfl, hfront, hlast⟩ := ih
      exact ⟨b :: front, last, rfl, List.forall_mem_cons.2 ⟨hb, hfront⟩, hlast⟩

section Front

variable {k m n : ℕ} {v : ℤ} {front : List (BitVec 8)} {b : BitVec 8}

theorem payload_front (hb : Continues b) (bs : List (BitVec 8)) :
    payload (b :: bs) = b.toNat - 128 + 128 * payload bs := by
  unfold Continues at hb
  have := b.isLt
  rw [payload_cons]
  omega

theorem signedPayload_front (hb : Continues b) {bs : List (BitVec 8)} (h : bs ≠ []) :
    signedPayload (b :: bs) = (b.toNat : ℤ) - 128 + 128 * signedPayload bs := by
  unfold Continues at hb
  have := b.isLt
  rw [signedPayload_cons b h]
  omega

/-- The unsigned encodings: fewer than the maximal number of bytes, or the maximal
number with the unused bits of the last one zero. -/
theorem encodesU_iff (hm : 0 < m) (hm' : m ≤ 7) (hfront : ∀ c ∈ front, Continues c) :
    EncodesU (7 * k + m) (front ++ [b]) n ↔ n = payload (front ++ [b]) ∧
      (front.length < k ∧ ¬Continues b ∨ front.length = k ∧ b.toNat < 2 ^ m) := by
  induction front generalizing k n with
  | nil =>
      have hpow : 2 ^ m ≤ 128 := Nat.pow_le_pow_right (by decide) hm'
      have hb : ¬Continues b → b.toNat % 128 = b.toNat := fun h =>
        Nat.mod_eq_of_lt (Nat.lt_of_not_le h)
      constructor
      · intro h
        generalize hN : 7 * k + m = N at h
        cases h with
        | last hlast hlt =>
            refine ⟨by simp [hb hlast], ?_⟩
            rw [← hN] at hlt
            cases k with
            | zero => exact Or.inr ⟨rfl, by simpa using hlt⟩
            | succ k => exact Or.inl ⟨Nat.succ_pos k, hlast⟩
        | more _ _ h => cases h
      · rintro ⟨rfl, ⟨hk, hlast⟩ | ⟨hk, hlt⟩⟩
        · have hlarge : 2 ^ 7 ≤ 2 ^ (7 * k + m) :=
            Nat.pow_le_pow_right (by decide) (by rw [List.length_nil] at hk; omega)
          have := EncodesU.last (N := 7 * k + m) hlast (by unfold Continues at hlast; omega)
          simpa [hb hlast] using this
        · have hlast : ¬Continues b := by unfold Continues; omega
          have := EncodesU.last (N := 7 * k + m) hlast (by
            rw [List.length_nil] at hk
            simpa [← hk] using hlt)
          simpa [hb hlast] using this
  | cons c front ih =>
      have hc := hfront c List.mem_cons_self
      have hfront' : ∀ d ∈ front, Continues d := fun d hd => hfront d (List.mem_cons_of_mem _ hd)
      rw [List.cons_append, payload_front hc, List.length_cons]
      constructor
      · intro h
        generalize hN : 7 * k + m = N at h
        generalize hbs : c :: (front ++ [b]) = bs at h
        cases h with
        | last hlast =>
            have hnil := (List.cons.inj hbs).2
            exact absurd hnil (by simp)
        | @more N n d bs hpos hcont h =>
            obtain ⟨rfl, rfl⟩ := List.cons.inj hbs
            cases k with
            | zero => omega
            | succ k =>
                obtain rfl : N = 7 * k + m := by omega
                rw [Nat.add_lt_add_iff_right, Nat.add_right_cancel_iff]
                obtain ⟨rfl, hcases⟩ := (ih hfront').1 h
                exact ⟨rfl, hcases⟩
      · rintro ⟨rfl, hcases⟩
        cases k with
        | zero => omega
        | succ k =>
            rw [Nat.add_lt_add_iff_right, Nat.add_right_cancel_iff] at hcases
            have h := (ih (k := k) hfront').2 ⟨rfl, hcases⟩
            have hN : 7 * (k + 1) + m = 7 * k + m + 7 := by omega
            rw [hN]
            exact .more (by omega) hc h

/-- The signed encodings: in the last byte of a maximal one the unused bits are
copies of the sign bit. -/
theorem encodesS_iff (hm : 0 < m) (hm' : m ≤ 7) (hfront : ∀ c ∈ front, Continues c) :
    EncodesS (7 * k + m) (front ++ [b]) v ↔ v = signedPayload (front ++ [b]) ∧
      (front.length < k ∧ ¬Continues b ∨ front.length = k ∧ ¬Continues b ∧
        (b.toNat < 2 ^ (m - 1) ∨ 128 ≤ b.toNat + 2 ^ (m - 1))) := by
  induction front generalizing k v with
  | nil =>
      have hpow : 2 ^ (m - 1) ≤ 2 ^ 6 := Nat.pow_le_pow_right (by decide) (by omega)
      have hlarge : 0 < k → 2 ^ 6 ≤ 2 ^ (7 * k + m - 1) := fun hk =>
        Nat.pow_le_pow_right (by decide) (by omega)
      have hb : ¬Continues b → b.toNat % 128 = b.toNat := fun h =>
        Nat.mod_eq_of_lt (Nat.lt_of_not_le h)
      have hzero : k = 0 → 7 * k + m - 1 = m - 1 := fun hk => by omega
      rw [List.nil_append, List.length_nil, signedPayload_singleton]
      constructor
      · intro h
        generalize hN : 7 * k + m = N at h
        cases h with
        | nonneg hlast hlt =>
            rw [← hN] at hlt
            have hcont : ¬Continues b := by unfold Continues; omega
            refine ⟨by rw [hb hcont, if_pos hlast]; omega, ?_⟩
            rcases Nat.eq_zero_or_pos k with hk | hk
            · rw [hzero hk] at hlt
              exact Or.inr ⟨hk.symm, hcont, Or.inl hlt⟩
            · exact Or.inl ⟨hk, hcont⟩
        | neg hlast hcont hlt =>
            rw [← hN] at hlt
            refine ⟨by rw [hb hcont, if_neg (by omega)]; unfold Continues at hcont; omega, ?_⟩
            rcases Nat.eq_zero_or_pos k with hk | hk
            · rw [hzero hk] at hlt
              exact Or.inr ⟨hk.symm, hcont, Or.inr hlt⟩
            · exact Or.inl ⟨hk, hcont⟩
        | more _ _ h => cases h
      · rintro ⟨rfl, hcases⟩
        have hcont : ¬Continues b := by
          rcases hcases with ⟨-, h⟩ | ⟨-, h, -⟩
          · exact h
          · exact h
        have hmod := hb hcont
        have hcont' : b.toNat < 128 := Nat.lt_of_not_le hcont
        rw [hmod]
        by_cases hsign : b.toNat < 64
        · rw [if_pos hsign]
          have hvalue : (b.toNat : ℤ) % 128 = b.toNat := by omega
          rw [hvalue]
          refine .nonneg hsign ?_
          rcases hcases with ⟨hk, -⟩ | ⟨hk, -, hlt⟩
          · have := hlarge hk
            omega
          · rw [hzero hk.symm]
            omega
        · rw [if_neg hsign]
          have hvalue : (b.toNat : ℤ) % 128 = b.toNat := by omega
          rw [hvalue]
          refine .neg (Nat.le_of_not_lt hsign) hcont ?_
          rcases hcases with ⟨hk, -⟩ | ⟨hk, -, hlt⟩
          · have := hlarge hk
            omega
          · rw [hzero hk.symm]
            omega
  | cons c front ih =>
      have hc := hfront c List.mem_cons_self
      have hfront' : ∀ d ∈ front, Continues d := fun d hd => hfront d (List.mem_cons_of_mem _ hd)
      rw [List.cons_append, signedPayload_front hc (by simp), List.length_cons]
      constructor
      · intro h
        generalize hN : 7 * k + m = N at h
        generalize hbs : c :: (front ++ [b]) = bs at h
        cases h with
        | nonneg _ =>
            have hnil := (List.cons.inj hbs).2
            exact absurd hnil (by simp)
        | neg _ _ =>
            have hnil := (List.cons.inj hbs).2
            exact absurd hnil (by simp)
        | @more N v d bs hpos hcont h =>
            obtain ⟨rfl, rfl⟩ := List.cons.inj hbs
            cases k with
            | zero => omega
            | succ k =>
                obtain rfl : N = 7 * k + m := by omega
                rw [Nat.add_lt_add_iff_right, Nat.add_right_cancel_iff]
                obtain ⟨rfl, hcases⟩ := (ih hfront').1 h
                exact ⟨rfl, hcases⟩
      · rintro ⟨rfl, hcases⟩
        cases k with
        | zero => omega
        | succ k =>
            rw [Nat.add_lt_add_iff_right, Nat.add_right_cancel_iff] at hcases
            have h := (ih (k := k) hfront').2 ⟨rfl, hcases⟩
            have hN : 7 * (k + 1) + m = 7 * k + m + 7 := by omega
            rw [hN]
            exact .more (by omega) hc h

end Front

/-! ### Which integers have encodings -/

theorem EncodesS.bounds {N : ℕ} {v : ℤ} {bs : List (BitVec 8)} (h : EncodesS N bs v) :
    -(2 : ℤ) ^ (N - 1) ≤ v ∧ v < (2 : ℤ) ^ (N - 1) := by
  induction h with
  | @nonneg N b _ hlt =>
      have hcast : ((b.toNat : ℕ) : ℤ) < ((2 ^ (N - 1) : ℕ) : ℤ) := Int.ofNat_lt.2 hlt
      push_cast at hcast
      omega
  | @neg N b _ hcont hlt =>
      have hcast : ((128 : ℕ) : ℤ) ≤ ((b.toNat + 2 ^ (N - 1) : ℕ) : ℤ) := Int.ofNat_le.2 hlt
      push_cast at hcast
      unfold Continues at hcont
      omega
  | @more N v b bs hN hcont _ ih =>
      have hpow : (2 : ℤ) ^ (N + 7 - 1) = 128 * 2 ^ (N - 1) := by
        rw [show N + 7 - 1 = N - 1 + 7 by omega, pow_add]
        ring
      have hb := b.isLt
      unfold Continues at hcont
      rw [hpow]
      omega

/-- An integer has an encoding of every length that has room for it. -/
theorem exists_encodesU {N n k : ℕ} (hN : 7 * k < N) (hn : n < 2 ^ N) (hk : n < 2 ^ (7 * (k + 1))) :
    ∃ bs, bs.length = k + 1 ∧ EncodesU N bs n := by
  induction k generalizing N n with
  | zero =>
      have hbyte : (BitVec.ofNat 8 n).toNat = n := by
        rw [BitVec.toNat_ofNat]
        omega
      have h := @EncodesU.last N (BitVec.ofNat 8 n) (by unfold Continues; omega) (by rwa [hbyte])
      rw [hbyte] at h
      exact ⟨[BitVec.ofNat 8 n], rfl, h⟩
  | succ k ih =>
      obtain ⟨N, rfl⟩ : ∃ M, N = M + 7 := ⟨N - 7, by omega⟩
      have hpow : 2 ^ (N + 7) = 2 ^ N * 128 := Nat.pow_add 2 N 7
      have hpow' : 2 ^ (7 * (k + 1 + 1)) = 2 ^ (7 * (k + 1)) * 128 :=
        Nat.pow_add 2 (7 * (k + 1)) 7
      obtain ⟨bs, hlength, h⟩ := ih (N := N) (n := n / 128) (by omega) (by omega) (by omega)
      have hbyte : (BitVec.ofNat 8 (n % 128 + 128)).toNat = n % 128 + 128 := by
        rw [BitVec.toNat_ofNat]
        omega
      have hmore := EncodesU.more (b := BitVec.ofNat 8 (n % 128 + 128)) (by omega)
        (by unfold Continues; omega) h
      have hvalue : n % 128 + 128 - 128 + 128 * (n / 128) = n := by omega
      rw [hbyte, hvalue] at hmore
      exact ⟨_ :: bs, congrArg (· + 1) hlength, hmore⟩

theorem exists_encodesS {N k : ℕ} {v : ℤ} (hN : 7 * k < N)
    (hv : -(2 : ℤ) ^ (N - 1) ≤ v ∧ v < (2 : ℤ) ^ (N - 1))
    (hk : -(2 : ℤ) ^ (7 * k + 6) ≤ v ∧ v < (2 : ℤ) ^ (7 * k + 6)) :
    ∃ bs, bs.length = k + 1 ∧ EncodesS N bs v := by
  induction k generalizing N v with
  | zero =>
      obtain ⟨n, hn, hsign⟩ : ∃ n : ℕ, n < 128 ∧ (0 ≤ v ∧ v = n ∨ v < 0 ∧ v = n - 128) :=
        ⟨(v % 128).toNat, by omega, by omega⟩
      have hbyte : (BitVec.ofNat 8 n).toNat = n := by
        rw [BitVec.toNat_ofNat]
        omega
      refine ⟨[BitVec.ofNat 8 n], rfl, ?_⟩
      rcases hsign with ⟨hpos, rfl⟩ | ⟨hneg, rfl⟩
      · have h := @EncodesS.nonneg N (BitVec.ofNat 8 n) (by omega) (by
          rw [hbyte]
          exact_mod_cast hv.2)
        rwa [hbyte] at h
      · have hlt : (128 : ℤ) ≤ n + 2 ^ (N - 1) := by omega
        have h := @EncodesS.neg N (BitVec.ofNat 8 n) (by omega) (by unfold Continues; omega) (by
          rw [hbyte]
          exact_mod_cast hlt)
        rwa [hbyte] at h
  | succ k ih =>
      obtain ⟨N, rfl⟩ : ∃ M, N = M + 7 := ⟨N - 7, by omega⟩
      have hpow : (2 : ℤ) ^ (N + 7 - 1) = 128 * 2 ^ (N - 1) := by
        rw [show N + 7 - 1 = N - 1 + 7 by omega, pow_add]
        ring
      have hpow' : (2 : ℤ) ^ (7 * (k + 1) + 6) = 128 * 2 ^ (7 * k + 6) := by
        rw [show 7 * (k + 1) + 6 = 7 * k + 6 + 7 by omega, pow_add]
        ring
      rw [hpow] at hv
      rw [hpow'] at hk
      obtain ⟨bs, hlength, h⟩ := ih (N := N) (v := v / 128) (by omega) (by omega) (by omega)
      obtain ⟨n, hn, hmod⟩ : ∃ n : ℕ, n < 128 ∧ v % 128 = n := ⟨(v % 128).toNat, by omega, by omega⟩
      have hbyte : (BitVec.ofNat 8 (n + 128)).toNat = n + 128 := by
        rw [BitVec.toNat_ofNat]
        omega
      have hmore := EncodesS.more (b := BitVec.ofNat 8 (n + 128)) (by omega)
        (by unfold Continues; omega) h
      have hvalue : ((n + 128 : ℕ) : ℤ) - 128 + 128 * (v / 128) = v := by omega
      rw [hbyte, hvalue] at hmore
      exact ⟨_ :: bs, congrArg (· + 1) hlength, hmore⟩

end Leb128
