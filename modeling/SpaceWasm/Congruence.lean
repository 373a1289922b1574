import SpaceWasm.Decoding
import SpaceWasm.Lib.Lockstep

/-!
# Readers that decoding cannot tell apart

Two readers may deliver the same bytes in different chunks, or hold the same
bytes at different places of a binary. `Reader.Congruence E k R` says what a
relation `R` between readers needs so that decoding runs on both of them in
lockstep: the steps that read a byte respect it, the two offsets are `k` bytes
apart, and so are the limits, which may be set and restored together. `E` relates
the errors.
-/

namespace SpaceWasm

open Fallible

structure Reader.Congruence (E : ValidationError → ValidationError → Prop) (k : ℕ)
    (R : Reader → Reader → Prop) : Prop where
  refl : ∀ e, E e e
  readU8 : Respects E R SpaceWasm.readU8
  expectU8 : ∀ expected, Respects E R (SpaceWasm.expectU8 expected)
  offset : ∀ {r t}, R r t → t.offset = r.offset + k
  limit : ∀ {r t}, R r t → t.limit = r.limit + k
  limit_le : ∀ {r t}, R r t → t.limit ≤ usizeMax
  enter : ∀ {r t} n, R r t → r.offset + n ≤ r.limit →
    R { r with limit := r.offset + n } { t with limit := t.offset + n }
  leave : ∀ {r t r' t'}, R r t → R r' t' →
    R { r' with limit := r.limit } { t' with limit := t.limit }

variable {E : ValidationError → ValidationError → Prop} {k : ℕ} {R : Reader → Reader → Prop}
variable {α : Type}

namespace Reader.Congruence

theorem remaining (hR : Congruence E k R) {r t : Reader} (h : R r t) :
    r.bytesRemaining = t.bytesRemaining := by
  have hoffset := hR.offset h
  have hlimit := hR.limit h
  unfold bytesRemaining
  omega

/-- Every decoder runs in lockstep. -/
theorem decoder (hR : Congruence E k R) {x : ReaderM α} (h : Decoder x) : Respects E R x := by
  induction h with
  | pure a => exact .pure a
  | throw e => exact .throw (hR.refl e)
  | readU8 => exact hR.readU8
  | expectU8 expected => exact hR.expectU8 expected
  | remaining => exact .gets fun _ _ => hR.remaining
  | bind _ _ ihx ihf => exact .bind ihx ihf

/-- Limited reads run in lockstep. -/
theorem withLimit (hR : Congruence E k R) {ε σ : Type} {E' : ε → ε → Prop} {Q : σ → σ → Prop}
    {view : σ → Reader} {update : σ → Reader → σ} {inject : ValidationError → ε}
    {f g : Fallible ε σ α}
    (hinject : ∀ e, E' (inject e) (inject e)) (hview : ∀ s t, Q s t → R (view s) (view t))
    (hupdate : ∀ s t r r', Q s t → R r r' → Q (update s r) (update t r')) (n : ℕ)
    (hf : Lockstep E' Q f g) :
    Lockstep E' Q (SpaceWasm.withLimit view update inject n f)
      (SpaceWasm.withLimit view update inject n g) := by
  intro s t hst
  have hr := hview s t hst
  have hoffset := hR.offset hr
  have hlimit := hR.limit hr
  have hmax := hR.limit_le hr
  unfold SpaceWasm.withLimit
  simp only
  by_cases hn : (view s).offset + n ≤ (view s).limit
  · rw [if_pos ⟨by omega, hn⟩, if_pos ⟨by omega, by omega⟩]
    have hfg := hf _ _ (hupdate s t _ _ hst (hR.enter n hr hn))
    generalize f _ = o at hfg
    generalize g _ = o' at hfg
    cases hfg with
    | ok a h => exact .ok a (hupdate _ _ _ _ h (hR.leave hr (hview _ _ h)))
    | error he h => exact .error he (hupdate _ _ _ _ h (hR.leave hr (hview _ _ h)))
    | panic => exact .panic
    | diverge => exact .diverge
  · rw [if_neg fun h => hn h.2, if_neg fun h => hn (by omega)]
    exact .error (hinject _) hst

end Reader.Congruence

/-! ### Expressions -/

variable {σ : Type}

/-- Related streams and the same visitor state. -/
structure Decoding.Like (R : Reader → Reader → Prop) (d d' : Decoding σ) : Prop where
  wasm : R d.wasm d'.wasm
  visitor : d'.visitor = d.visitor

theorem respects_reading {x : ReaderM α} (h : Respects E R x) :
    Respects E (Decoding.Like R) (reading x : DecodeM σ α) :=
  .zoom (fun _ _ h => h.wasm) h fun _ _ _ _ h h' => ⟨h', h.visitor⟩

theorem respects_visiting (hE : ∀ e, E e e) (x : Fallible ValidationError σ α) :
    Respects E (Decoding.Like R) (visiting x) := by
  rintro ⟨r, s⟩ ⟨r', t⟩ ⟨hwasm, hvisitor⟩
  simp only at hwasm hvisitor
  subst hvisitor
  unfold visiting zoom
  simp only
  cases x t with
  | ok a u => exact .ok a ⟨hwasm, rfl⟩
  | error e u => exact .error (hE e) ⟨hwasm, rfl⟩
  | panic => exact .panic
  | diverge => exact .diverge

variable (hR : Reader.Congruence E k R)

include hR

theorem respects_readCodeStep (v : WasmVisitor σ) (depth : ℕ) :
    Respects E (Decoding.Like R) (readCodeStep v depth) := by
  refine .bind (respects_reading hR.readU8) fun op => .ite (fun _ => ?_) fun _ => ?_
  · refine .bind ?_ fun _ => .pure _
    refine .bind (respects_reading (hR.decoder decoder_readU32)) fun len => ?_
    refine .bind (respects_visiting hR.refl _) fun _ => .bind (.iterate ?_ _) fun _ => ?_
    · refine .bind (respects_reading (hR.decoder decoder_idx)) fun l => ?_
      exact respects_visiting hR.refl _
    · refine .bind (respects_reading (hR.decoder decoder_idx)) fun l => ?_
      exact respects_visiting hR.refl _
  · refine .bind (respects_reading (hR.decoder (decoder_readInstr depth op))) fun i => ?_
    exact .bind (respects_visiting hR.refl _) fun _ => .pure _

/-- The bound on the rounds of the loop does not matter, as it is never reached. -/
theorem alike_readCodeLoop (v : WasmVisitor σ) (fuel fuel' depth : ℕ) (d d' : Decoding σ)
    (h : d.Like R d') (hfuel : d.wasm.input.length < fuel) (hfuel' : d'.wasm.input.length < fuel') :
    (readCodeLoop v fuel depth d).Alike E (Decoding.Like R) (readCodeLoop v fuel' depth d') := by
  induction fuel generalizing fuel' depth d d' with
  | zero => exact absurd hfuel (Nat.not_lt_zero _)
  | succ fuel ih =>
      obtain ⟨fuel', rfl⟩ : ∃ n, fuel' = n + 1 := Nat.exists_eq_succ_of_ne_zero (by omega)
      have hstep := respects_readCodeStep hR v depth d d' h
      unfold readCodeLoop
      rw [bind_apply, bind_apply]
      cases ho : readCodeStep v depth d with
      | ok next d₁ =>
          rw [ho] at hstep
          generalize ho' : readCodeStep v depth d' = o' at hstep
          cases hstep with
          | ok _ h₁ =>
            have hlt := readCodeStep_consumes ho
            have hlt' := readCodeStep_consumes ho'
            cases next with
            | none => exact .ok () h₁
            | some depth' => exact ih fuel' depth' d₁ _ h₁ (by omega) (by omega)
      | error e d₁ =>
          rw [ho] at hstep
          generalize readCodeStep v depth d' = o' at hstep
          cases hstep with
          | error he h₁ => exact .error he h₁
      | panic =>
          rw [ho] at hstep
          generalize readCodeStep v depth d' = o' at hstep
          cases hstep
          exact .panic
      | diverge =>
          rw [ho] at hstep
          generalize readCodeStep v depth d' = o' at hstep
          cases hstep
          exact .diverge

theorem respects_readCode (v : WasmVisitor σ) : Respects E (Decoding.Like R) (readCode v) := by
  intro d d' h
  exact alike_readCodeLoop hR v _ _ 0 d d' h (Nat.lt_succ_self _) (Nat.lt_succ_self _)

end SpaceWasm
