import SpaceWasm.Entities
import SpaceWasm.Globals

/-!
# Initialisers

The globals of a module are those that its global section declares, each with the value
that its initialiser has when the module is loaded. No other section touches them.
-/

namespace SpaceWasm

open Fallible

variable {env : LoadEnv} {name : Name} {wasm : Reader} {t t' : LoadTarget}

/-! ### The global section -/

/-- The declaration of a global: its type, and the value of its initialiser. -/
def Global.readInit (env : LoadEnv) : LoadM (GlobalType × Value) := do
  let type ← decoding GlobalType.read
  let init ← readConstant env
  pure (type, init)

/-- The global that is declared, with a value of its type. -/
def Global.DeclaredAs (p : GlobalType × Value) (g : Global) : Prop :=
  p.2.type = p.1.ty ∧ g = ⟨p.1, RawValue.ofValue p.2⟩

theorem globalRead_eq_ok {s u : LoadState} {g : Global} (h : Global.read env s = .ok g u) :
    ∃ p, Global.readInit env s = .ok p u ∧ Global.DeclaredAs p g := by
  obtain ⟨type, s₁, htype, h⟩ := bind_eq_ok.1 h
  obtain ⟨init, s₂, hinit, h⟩ := bind_eq_ok.1 h
  split at h
  · cases h
  · next hne =>
    cases h
    refine ⟨(type, init), ?_, (Decidable.not_not.1 hne).symm, rfl⟩
    rw [Global.readInit, bind_of_ok htype, bind_of_ok hinit]
    rfl

theorem collect_globalRead {n : ℕ} {s u : LoadState} {globals : List Global}
    (h : collect n (Global.read env) s = .ok globals u) :
    ∃ inits, collect n (Global.readInit env) s = .ok inits u ∧
      List.Forall₂ Global.DeclaredAs inits globals := by
  induction n generalizing s globals with
  | zero =>
      cases h
      exact ⟨[], rfl, .nil⟩
  | succ n ih =>
      rw [collect_succ] at h
      obtain ⟨g, s₁, hg, h⟩ := bind_eq_ok.1 h
      obtain ⟨rest, s₂, hrest, h⟩ := bind_eq_ok.1 h
      cases h
      obtain ⟨p, hp, hdeclared⟩ := globalRead_eq_ok hg
      obtain ⟨inits, hinits, hall⟩ := ih hrest
      refine ⟨p :: inits, ?_, .cons hdeclared hall⟩
      rw [collect_succ, bind_of_ok hp, bind_of_ok hinits]
      rfl

theorem readVec_globalRead {s u : LoadState} {globals : List Global}
    (h : readVec (Global.read env) s = .ok globals u) :
    ∃ inits, readVec (Global.readInit env) s = .ok inits u ∧
      List.Forall₂ Global.DeclaredAs inits globals := by
  obtain ⟨len, s₁, hlen, h⟩ := bind_eq_ok.1 h
  rw [bind_of_ok (gets_apply _ _)] at h
  split at h
  · cases h
  · next hremaining =>
    obtain ⟨_, s₂, hvec, h⟩ := bind_eq_ok.1 h
    obtain ⟨inits, hinits, hall⟩ := collect_globalRead h
    refine ⟨inits, ?_, hall⟩
    rw [readVec, bind_of_ok hlen, bind_of_ok (gets_apply _ _), if_neg hremaining, bind_of_ok hvec]
    exact hinits

/-- The declarations of the globals of a binary, with the values of their initialisers: those
of the global section that its load comes to, if there is one. -/
def InitialisedBy (env : LoadEnv) (name : Name) (wasm : Reader) (t : LoadTarget)
    (inits : List (GlobalType × Value)) : Prop :=
  ∃ s, readHeader name (t.start name wasm) = .ok () s ∧
    ((∃ s' u, AtSection env s .custom .global s' ∧
        readVec (Global.readInit env) s' = .ok inits u) ∨
      (∀ s', ¬AtSection env s .custom .global s') ∧ inits = [])

/-! ### Loads -/

section Field

variable {β : Type} (field : Module → β) {target : SectionKind}

/-- A field of the module that only one kind of section sets: after all sections it is as the
section of this kind has left it or, if there is none, as it was. -/
theorem readSections_field (hne : target ≠ .custom)
    (hfield : ∀ {kind s u}, kind ≠ target → readSectionBody env kind s = .ok () u →
      field u.module = field s.module)
    {fuel : ℕ} {last : SectionKind} {seenCode b : Bool} {s u : LoadState}
    (h : readSections env fuel last seenCode s = .ok b u) :
    (∃ size s' v, AtSection env s last target s' ∧ readSection env size target s' = .ok () v ∧
        field u.module = field v.module) ∨
      (∀ s', ¬AtSection env s last target s') ∧ field u.module = field s.module := by
  induction fuel generalizing last seenCode s with
  | zero => cases h
  | succ fuel ih =>
      have hquiet := (quiet_decoding decoder_sectionKind : Quiet s _ _) s (.refl s)
      unfold readSections at h
      cases hr : decoding SectionKind.read s with
      | error e v =>
          rw [hr] at h hquiet
          cases e <;> cases h
          refine .inr ⟨fun s' hat => ?_, by rw [hquiet.module]⟩
          cases hat with
          | here hk | later hk => cases hr.symm.trans hk
      | panic | diverge =>
          rw [hr] at h
          cases h
      | ok kind v =>
          rw [hr] at h hquiet
          obtain ⟨next, v', hnext, h⟩ := bind_eq_ok.1 h
          obtain ⟨horder, rfl⟩ := ofExcept_eq_ok.1 (mapError_eq_ok.1 hnext)
          obtain ⟨_, w, hbody, h⟩ := bind_eq_ok.1 h
          by_cases hkind : kind = target
          · subst hkind
            obtain ⟨-, -, rfl⟩ := (checkOrder_eq_ok.1 horder).resolve_left fun h => hne h.1
            obtain ⟨size, s₁, x, hsize, -, hsection, rfl, -⟩ := readSectionBody_eq_ok hbody
            -- no other section of this kind follows
            rcases ih h with ⟨_, s', _, hat, -⟩ | ⟨-, hsame⟩
            · exact absurd (hat.lt hne) (Nat.lt_irrefl _)
            · exact .inl ⟨_, _, x, .here hr horder hsize, hsection, hsame⟩
          · rcases ih h with ⟨size, s', x, hat, hsection, hsame⟩ | ⟨hnone, hsame⟩
            · exact .inl ⟨size, s', x, .later hr horder hbody hat, hsection, hsame⟩
            · refine .inr ⟨fun s' hat => ?_, ?_⟩
              · cases hat with
                | here hk =>
                    cases hr.symm.trans hk
                    exact hkind rfl
                | later hk ho hb hat =>
                    cases hr.symm.trans hk
                    cases horder.symm.trans ho
                    cases hbody.symm.trans hb
                    exact hnone s' hat
              · rw [hsame, hfield hkind hbody, hquiet.1.module]

end Field

theorem readSectionBody_globals {kind : SectionKind} {s u : LoadState} (hne : kind ≠ .global)
    (h : readSectionBody env kind s = .ok () u) : u.module.globals = s.module.globals :=
  (Guarded.ok (readSectionBody_frame (W := .all) env fun _ _ _ =>
    LoadState.sectionWrites_all env kind _) rfl h).module.globals hne

/-- A module that is loaded has the globals that its binary declares. -/
theorem Module.new_globals {m : Module} (h : Module.new env name wasm t = .ok m t') :
    ∃ inits, InitialisedBy env name wasm t inits ∧
      List.Forall₂ Global.DeclaredAs inits m.globals := by
  obtain ⟨w, b, x, hheader, hsections, -, rfl, rfl⟩ := Module.new_eq_ok h
  have hcontinues := (readHeader_frame name).ok rfl hheader
  rcases readSections_field Module.globals (show SectionKind.global ≠ .custom by decide)
      readSectionBody_globals hsections with
    ⟨size, s', y, hat, hsection, hsame⟩ | ⟨hnone, hsame⟩
  · obtain ⟨globals, u, hglobals, hsection⟩ := bind_eq_ok.1 hsection
    obtain ⟨inits, hinits, hall⟩ := readVec_globalRead hglobals
    split at hsection
    · cases hsection
    · cases hsection
      exact ⟨inits, ⟨w, hheader, .inl ⟨s', u, hat, hinits⟩⟩, hsame ▸ hall⟩
  · refine ⟨[], ⟨w, hheader, .inr ⟨hnone, rfl⟩⟩, ?_⟩
    rw [hsame, hcontinues.module]
    exact .nil

end SpaceWasm
