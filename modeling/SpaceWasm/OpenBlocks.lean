import SpaceWasm.Representation

/-!
# Open blocks in the code buffer

What happens to the representation when a block is opened, when a branch to an
open block is written, and when the end of a block or an `else` arm is bound to
the current address.
-/

namespace SpaceWasm

open Fallible TextBuilder

/-! ### Lists of blocks -/

section Lists

variable {α β : Type}

theorem forall₂_imp_mem {R R' : α → β → Prop} {as : List α} {bs : List β}
    (h : List.Forall₂ R as bs) (himp : ∀ a ∈ as, ∀ b, R a b → R' a b) :
    List.Forall₂ R' as bs := by
  induction h with
  | nil => exact List.Forall₂.nil
  | cons hab _ ih =>
      refine List.Forall₂.cons (himp _ List.mem_cons_self _ hab) (ih fun a ha => ?_)
      exact himp a (List.mem_cons_of_mem _ ha)

theorem forall₂_modify {R R' : α → β → Prop} {as : List α} {bs : List β}
    (h : List.Forall₂ R as bs) {k : ℕ} {a : α} {b : β} (ha : as[k]? = some a)
    (hb : bs[k]? = some b) {f : β → β} (hk : R a b → R' a (f b))
    (hother : ∀ a' ∈ as.eraseIdx k, ∀ b, R a' b → R' a' b) :
    List.Forall₂ R' as (bs.modify k f) := by
  induction h generalizing k with
  | nil => simp at ha
  | cons hab hrest ih =>
      rename_i a₀ b₀ as bs
      cases k with
      | zero =>
          obtain rfl : a₀ = a := by simpa using ha
          obtain rfl : b₀ = b := by simpa using hb
          refine List.Forall₂.cons (hk hab) (forall₂_imp_mem hrest fun a' ha' => ?_)
          exact hother a' (by simpa using ha')
      | succ k =>
          refine List.Forall₂.cons (hother a₀ (by simp) b₀ hab) ?_
          exact ih (by simpa using ha) (by simpa using hb) fun a' ha' => hother a' (by simp [ha'])

theorem forall₂_getElem? {R : α → β → Prop} {as : List α} {bs : List β}
    (h : List.Forall₂ R as bs) {k : ℕ} {a : α} (ha : as[k]? = some a) :
    ∃ b, bs[k]? = some b ∧ R a b := by
  induction h generalizing k with
  | nil => simp at ha
  | cons hab hrest ih =>
      rename_i a₀ b₀ as bs
      cases k with
      | zero =>
          obtain rfl : a₀ = a := by simpa using ha
          exact ⟨b₀, by simp, hab⟩
      | succ k =>
          obtain ⟨b, hb, hR⟩ := ih (by simpa using ha)
          exact ⟨b, by simpa using hb, hR⟩

theorem forall₂_getElem?_none {R : α → β → Prop} {as : List α} {bs : List β}
    (h : List.Forall₂ R as bs) {k : ℕ} (ha : as[k]? = none) : bs[k]? = none := by
  rw [List.getElem?_eq_none_iff] at ha ⊢
  rwa [← h.length_eq]

end Lists

/-- Other blocks have other identities. -/
theorem id_ne_of_mem_eraseIdx {bs : List Block} (h : (bs.map Block.id).Nodup) {k : ℕ} {b b' : Block}
    (hb : bs[k]? = some b) (hb' : b' ∈ bs.eraseIdx k) : b'.id ≠ b.id := by
  induction bs generalizing k with
  | nil => simp at hb
  | cons b₀ bs ih =>
      rw [List.map_cons, List.nodup_cons] at h
      cases k with
      | zero =>
          obtain rfl : b₀ = b := by simpa using hb
          intro heq
          have hmem : b'.id ∈ bs.map Block.id := List.mem_map_of_mem (by simpa using hb')
          rw [heq] at hmem
          exact h.1 hmem
      | succ k =>
          have hbk : bs[k]? = some b := by simpa using hb
          rcases List.mem_cons.1 (by simpa using hb' : b' ∈ b₀ :: bs.eraseIdx k) with rfl | hmem
          · intro heq
            have hmem : b.id ∈ bs.map Block.id := List.mem_map_of_mem (List.mem_of_getElem? hbk)
            rw [← heq] at hmem
            exact h.1 hmem
          · exact ih h.2 hbk hmem

theorem IdsOk.nodup_ids {L : Listing} {p : List Cell} {nextId : ℕ} {bs : List Block}
    (h : IdsOk L p nextId (bs.map Block.tag)) : (bs.map Block.id).Nodup := by
  have := h.nodup
  rwa [List.map_map] at this

/-- An operand waits for one block only. -/
theorem not_awaits_of_ne {k kind' : BlockKind} {id id' : ℕ} {d : Dest} (hne : id' ≠ id)
    (h : Awaits k id d) : ¬Awaits kind' id' d := by
  rintro (h' | ⟨-, h'⟩)
  · rcases h with h | ⟨-, h⟩
    · rw [h, Dest.end_.injEq] at h'
      exact hne h'.symm
    · rw [h] at h'
      cases h'
  · rcases h with h | ⟨-, h⟩
    · rw [h] at h'
      cases h'
    · rw [h, Dest.else_.injEq] at h'
      exact hne h'.symm

section Open

variable {job : Job} {L : Listing} {p : List Cell} {nextId : ℕ} {bs : List Block}
  {fs : List ControlFrame} {c c' : CodeBuilder}

/-! ### Opening a block -/

theorem LabelOk.mono {opens : List (ℕ × BlockKind)} {o : ℕ × BlockKind} {d : Dest}
    (h : LabelOk L nextId opens d) : LabelOk L (nextId + 1) (o :: opens) d := by
  cases d with
  | ret => trivial
  | back a => trivial
  | end_ id =>
      refine ⟨Nat.lt_succ_of_lt h.1, fun hnone => ?_⟩
      obtain ⟨k, hk, hloop⟩ := h.2 hnone
      exact ⟨k, List.mem_cons_of_mem o hk, hloop⟩
  | else_ id => exact ⟨Nat.lt_succ_of_lt h.1, fun hnone => List.mem_cons_of_mem o (h.2 hnone)⟩

theorem IdsOk.open {opens : List (ℕ × BlockKind)} (h : IdsOk L p nextId opens) (kind : BlockKind) :
    IdsOk L p (nextId + 1) ((nextId, kind) :: opens) := by
  obtain ⟨hends, helses⟩ := h.fresh nextId (Nat.le_refl _)
  refine ⟨?_, ?_, ?_, ?_, ?_, ?_⟩
  · intro o ho
    rcases List.mem_cons.1 ho with rfl | ho
    · exact Nat.lt_succ_self _
    · exact Nat.lt_succ_of_lt (h.lt o ho)
  · rw [List.map_cons, List.nodup_cons]
    refine ⟨fun hmem => ?_, h.nodup⟩
    obtain ⟨o, ho, heq⟩ := List.mem_map.1 hmem
    have := h.lt o ho
    rw [heq] at this
    exact Nat.lt_irrefl _ this
  · intro o ho
    rcases List.mem_cons.1 ho with rfl | ho
    · exact hends
    · exact h.ends_none o ho
  · intro o ho hif
    rcases List.mem_cons.1 ho with rfl | ho
    · exact helses
    · exact h.elses_none o ho hif
  · intro id hid
    exact h.fresh id (Nat.le_of_succ_le hid)
  · intro i l hl
    exact (h.labels i l hl).mono

/-- No operand waits for a block that has not been opened yet. -/
theorem IdsOk.not_awaits {opens : List (ℕ × BlockKind)} (h : IdsOk L p nextId opens) {i : ℕ}
    {l : Label} (hl : (image L.entries ++ p)[i]? = some (Cell.lo l)) (kind : BlockKind) :
    ¬Awaits kind nextId l.dest := by
  have hok := h.labels i l hl
  rintro (ha | ⟨-, ha⟩)
  · rw [ha] at hok
    exact Nat.lt_irrefl _ hok.1
  · rw [ha] at hok
    exact Nat.lt_irrefl _ hok.1

theorem CodeInv.open_block (h : CodeInv job L p nextId bs fs c) {b : Block} {f : ControlFrame}
    (hid : b.id = nextId) (hkind : b.kind = .block) (hf : f.target = JumpTarget.sentinel) :
    CodeInv job L p (nextId + 1) (b :: bs) (f :: fs) c := by
  refine ⟨h.code, ?_, ?_, h.encodable⟩
  · rw [List.map_cons, Block.tag, hid]
    exact h.ids.open b.kind
  · refine List.Forall₂.cons ?_ h.chains
    refine ⟨fun hloop => ?_, fun _ => ⟨[], hf, fun s => ?_, fun hif => ?_⟩⟩
    · rw [hkind] at hloop
      cases hloop
    · constructor
      · intro hs
        cases hs
      · rintro ⟨i, -, hcell, ha⟩
        rw [hid] at ha
        exact absurd ha (h.ids.not_awaits hcell b.kind)
    · rw [hkind] at hif
      cases hif

theorem CodeInv.open_loop (h : CodeInv job L [] nextId bs fs c) {b : Block} {f : ControlFrame}
    (hid : b.id = nextId) (hkind : b.kind = .loop) (hstart : b.start = L.here)
    (hf : f.target = addrOf c.size) : CodeInv job L [] (nextId + 1) (b :: bs) (f :: fs) c := by
  have hsize : c.size = L.here := by
    rw [h.code.size]
    rfl
  refine ⟨h.code, ?_, ?_, h.encodable⟩
  · rw [List.map_cons, Block.tag, hid]
    exact h.ids.open b.kind
  · refine List.Forall₂.cons ⟨fun _ => ?_, fun hne => absurd hkind hne⟩ h.chains
    rw [hf, hsize, hstart]
    exact ⟨rfl, Nat.le_refl _⟩

/-! ### Branches to open blocks -/

/-- The cells of one label. -/
theorem Label.cells_lo {l l' : Label} {i : ℕ} (h : l.cells[i]? = some (.lo l')) :
    i = 0 ∧ l' = l := by
  rcases i with _ | _ | i
  · exact ⟨rfl, by simpa [Label.cells] using h.symm⟩
  · simp [Label.cells] at h
  · simp [Label.cells] at h

/-- An operand for a block that is still open is appended to its chain. -/
theorem ChainRel.await (hrel : CodeRel job L p c) {kind : BlockKind} {id start : ℕ}
    {target : JumpTarget} (h : ChainRel L p c.word kind id start target) {l : Label}
    {o : JumpOffset} (hx : Appended (words32 (l.pack o)) c c')
    (ho : JumpOffset.new (addrOf c.size) target = .ok o) (hkind : kind ≠ .loop)
    (hl : l.dest = .end_ id) : ChainRel L (p ++ l.cells) c'.word kind id start (addrOf c.size) := by
  refine ⟨fun hloop => absurd hloop hkind, fun _ => ?_⟩
  obtain ⟨sites, hchain, hmem, hif⟩ := h.chain hkind
  have hsize := hrel.size_eq
  refine ⟨⟨c.size, l⟩ :: sites, ⟨rfl, ?_, target, ⟨o, ho, hx.labelAt⟩, ?_⟩, ?_, ?_⟩
  · intro s hs
    obtain ⟨i, hi, hcell, -⟩ := (hmem s).1 hs
    have := hrel.lo_lt_size hcell
    simp only
    omega
  · refine hchain.congr fun s hs => ?_
    obtain ⟨i, hi, hcell, -⟩ := (hmem s).1 hs
    rw [hi]
    exact ⟨hx.old _ (hrel.lt_size hcell), hx.old _ (hrel.lo_lt_size hcell)⟩
  · intro s
    rw [List.mem_cons, hmem s]
    constructor
    · rintro (rfl | ⟨i, hi, hcell, ha⟩)
      · refine ⟨(image L.entries ++ p).length + 0, ?_, ?_, Or.inl hl⟩
        · rw [hsize, Nat.add_zero]
        · exact getElem?_append_new rfl
      · exact ⟨i, hi, getElem?_append_of_some hcell, ha⟩
    · rintro ⟨i, hi, hcell, ha⟩
      rcases getElem?_append_cells hcell with hold | ⟨j, rfl, hj⟩
      · exact Or.inr ⟨i, hi, hold, ha⟩
      · obtain ⟨rfl, hlabel⟩ := Label.cells_lo hj
        left
        obtain ⟨addr, label⟩ := s
        simp only at hi hlabel
        rw [hi, hlabel, hsize, Nat.add_zero]
  · intro hk
    obtain ⟨init, tail, rfl, htail, hinit⟩ := hif hk
    refine ⟨⟨c.size, l⟩ :: init, tail, rfl, htail, fun s hs => ?_⟩
    rcases List.mem_cons.1 hs with rfl | hs
    · exact hl
    · exact hinit s hs

theorem CodeRel.append_label (h : CodeRel job L p c) {l : Label} {o : JumpOffset}
    (hx : Appended (words32 (l.pack o)) c c') (hl : L.resolve l.dest = none) :
    CodeRel job L (p ++ l.cells) c' := by
  refine h.append hx (by simp [Label.cells, words32]) (fun i w hw => ?_)
    (fun i l' hi => ?_) (fun i l' target hi ht => ?_)
  · rcases i with _ | _ | i <;> simp [Label.cells] at hw
  · obtain ⟨rfl, rfl⟩ := Label.cells_lo hi
    rfl
  · obtain ⟨-, rfl⟩ := Label.cells_lo hi
    rw [hl] at ht
    cases ht

/-- A branch to the end of the `k`-th open block. -/
theorem CodeInv.append_branch (h : CodeInv job L p nextId bs fs c) {k : ℕ} {b : Block}
    {f : ControlFrame} (hb : bs[k]? = some b) (hf : fs[k]? = some f) (hkind : b.kind ≠ .loop)
    {l : Label} {o : JumpOffset} (hx : Appended (words32 (l.pack o)) c c')
    (ho : JumpOffset.new (addrOf c.size) f.target = .ok o) (hl : l.dest = .end_ b.id) :
    CodeInv job L (p ++ l.cells) nextId bs
      (fs.modify k fun f => { f with target := addrOf c.size }) c' := by
  have hmem : b ∈ bs := List.mem_of_getElem? hb
  have htag : b.tag ∈ bs.map Block.tag := List.mem_map_of_mem hmem
  have hnone : L.ends b.id = none := h.ids.ends_none b.tag htag
  refine ⟨?_, ?_, ?_, h.encodable⟩
  · refine h.code.append_label hx ?_
    rw [hl, Listing.resolve, hnone]
    rfl
  · refine h.ids.append fun i l' hi => ?_
    obtain ⟨-, rfl⟩ := Label.cells_lo hi
    rw [hl]
    exact ⟨h.ids.lt b.tag htag, fun _ => ⟨b.kind, htag, hkind⟩⟩
  · refine forall₂_modify h.chains hb hf (fun hchain => ?_) fun b' hb' f' hchain => ?_
    · exact hchain.await h.code hx ho hkind hl
    · refine hchain.append h.code hx fun i l' hi => ?_
      obtain ⟨-, rfl⟩ := Label.cells_lo hi
      exact not_awaits_of_ne (id_ne_of_mem_eraseIdx h.ids.nodup_ids hb hb') (k := b.kind)
        (Or.inl hl)

/-- The `if` instruction: its block is opened, and its false branch waits for the
`else` arm. -/
theorem CodeInv.open_if (h : CodeInv job L p nextId bs fs c) {b : Block} {f : ControlFrame}
    (hid : b.id = nextId) (hkind : b.kind = .if_) {l : Label} {o : JumpOffset}
    (hx : Appended (words32 (l.pack o)) c c') (ho : o = 0) (hl : l.dest = .else_ b.id)
    (hf : f.target = addrOf c.size) :
    CodeInv job L (p ++ l.cells) (nextId + 1) (b :: bs) (f :: fs) c' := by
  have hids : IdsOk L p (nextId + 1) ((b :: bs).map Block.tag) := by
    rw [List.map_cons, Block.tag, hid]
    exact h.ids.open b.kind
  have htag : (b.id, BlockKind.if_) ∈ (b :: bs).map Block.tag := by
    rw [← hkind]
    exact List.mem_map_of_mem List.mem_cons_self
  have hnone : L.elses b.id = none := hids.elses_none (b.id, .if_) htag rfl
  have hsize := h.code.size_eq
  refine ⟨?_, ?_, ?_, h.encodable⟩
  · refine h.code.append_label hx ?_
    rw [hl, Listing.resolve, hnone]
    rfl
  · refine hids.append fun i l' hi => ?_
    obtain ⟨-, rfl⟩ := Label.cells_lo hi
    rw [hl]
    exact ⟨hids.lt (b.id, .if_) htag, fun _ => htag⟩
  · refine List.Forall₂.cons ?_ ?_
    · refine ⟨fun hloop => ?_, fun _ => ⟨[⟨c.size, l⟩], ?_, fun s => ?_, fun _ => ?_⟩⟩
      · rw [hkind] at hloop
        cases hloop
      · refine ⟨hf, (fun s hs => by cases hs), JumpTarget.sentinel, ⟨o, ?_, hx.labelAt⟩, rfl⟩
        rw [ho]
        exact JumpOffset.new_sentinel _
      · rw [List.mem_singleton]
        constructor
        · rintro rfl
          refine ⟨(image L.entries ++ p).length + 0, ?_, ?_, Or.inr ⟨hkind, hl⟩⟩
          · rw [hsize, Nat.add_zero]
          · exact getElem?_append_new rfl
        · rintro ⟨i, hi, hcell, ha⟩
          rcases getElem?_append_cells hcell with hold | ⟨j, rfl, hj⟩
          · rw [hid] at ha
            exact absurd ha (h.ids.not_awaits hold b.kind)
          · obtain ⟨rfl, hlabel⟩ := Label.cells_lo hj
            obtain ⟨addr, label⟩ := s
            simp only at hi hlabel
            rw [hi, hlabel, hsize, Nat.add_zero]
      · exact ⟨[], ⟨c.size, l⟩, rfl, hl, (fun s hs => by cases hs)⟩
    · refine forall₂_imp_mem h.chains fun b' hb' f' hchain => ?_
      refine hchain.append h.code hx fun i l' hi => ?_
      obtain ⟨-, rfl⟩ := Label.cells_lo hi
      have hne : b'.id ≠ b.id := by
        have hlt := h.ids.lt b'.tag (List.mem_map_of_mem hb')
        rw [hid]
        exact Nat.ne_of_lt hlt
      exact not_awaits_of_ne hne (k := b.kind) (Or.inr ⟨hkind, hl⟩)

end Open

/-! ### Committing an instruction -/

section Commit

variable {job : Job} {L : Listing} {nextId : ℕ} {bs : List Block} {fs : List ControlFrame}
  {c : CodeBuilder}

/-- The written part of an instruction becomes part of the listing. -/
theorem CodeInv.commit {p : List Cell} (h : CodeInv job L p nextId bs fs c) {es : List Entry}
    (him : image es = image L.entries ++ p) (henc : ∀ e ∈ es, e.instr.Encodable) :
    CodeInv job { L with entries := es } [] nextId bs fs c := by
  have hrel := h.code
  have hids := h.ids
  have him' : image es ++ [] = image L.entries ++ p := by rw [List.append_nil, him]
  refine ⟨⟨hrel.base, ?_, hrel.options, hrel.below, ?_, ?_, ?_⟩,
    ⟨hids.lt, hids.nodup, hids.ends_none, hids.elses_none, hids.fresh, ?_⟩, ?_, henc⟩
  · rw [hrel.size_eq, List.length_nil, Nat.add_zero, Listing.here, him]
  · rw [him']
    exact hrel.words
  · rw [him']
    exact hrel.pairs
  · rw [him']
    exact hrel.jumps
  · rw [him']
    intro i l hl
    exact hids.labels i l hl
  · refine h.chains.imp fun b f hchain => ⟨fun hloop => ?_, fun hk => ?_⟩
    · obtain ⟨htarget, hstart⟩ := hchain.loop hloop
      refine ⟨htarget, Nat.le_trans hstart (Nat.add_le_add_left ?_ L.base)⟩
      rw [him, List.length_append]
      exact Nat.le_add_right _ _
    · rw [him']
      exact hchain.chain hk

end Commit

/-! ### Closing a block -/

section Close

variable {job : Job} {L : Listing} {p : List Cell} {nextId : ℕ} {bs : List Block}
  {fs : List ControlFrame} {c c' : CodeBuilder}

/-- The operands in `sites` are those of the listing that satisfy `A`. -/
def Covers (L : Listing) (p : List Cell) (A : Dest → Prop) (sites : List Site) : Prop :=
  ∀ s, s ∈ sites ↔ ∃ i, s.addr = L.base + i ∧
    (image L.entries ++ p)[i]? = some (Cell.lo s.label) ∧ A s.label.dest

theorem Covers.avoids_word {A : Dest → Prop} {sites : List Site} (hs : Covers L p A sites)
    (h : CodeRel job L p c) {i : ℕ} {w : U16}
    (hi : (image L.entries ++ p)[i]? = some (Cell.word w)) : Site.Avoids sites (L.base + i) := by
  intro s hmem
  obtain ⟨j, hj, hcell, -⟩ := (hs s).1 hmem
  have hnext := h.pairs j s.label hcell
  constructor
  · intro heq
    obtain rfl : i = j := by omega
    rw [hi] at hcell
    cases hcell
  · intro heq
    obtain rfl : i = j + 1 := by omega
    rw [hi] at hnext
    cases hnext

theorem Covers.avoids_label {A : Dest → Prop} {sites : List Site} (hs : Covers L p A sites)
    (h : CodeRel job L p c) {i : ℕ} {l : Label}
    (hi : (image L.entries ++ p)[i]? = some (Cell.lo l)) (hA : ¬A l.dest) :
    Site.Avoids sites (L.base + i) ∧ Site.Avoids sites (L.base + i + 1) := by
  have hhi := h.pairs i l hi
  have hne : ∀ s ∈ sites, ∀ j, s.addr = L.base + j →
      (image L.entries ++ p)[j]? = some (Cell.lo s.label) → A s.label.dest →
      i ≠ j ∧ i ≠ j + 1 ∧ i + 1 ≠ j := by
    intro s _ j _ hcell hAs
    have hnext := h.pairs j s.label hcell
    refine ⟨?_, ?_, ?_⟩
    · rintro rfl
      rw [hi] at hcell
      cases hcell
      exact hA hAs
    · rintro rfl
      rw [hi] at hnext
      cases hnext
    · rintro rfl
      rw [hhi] at hcell
      cases hcell
  constructor
  · intro s hmem
    obtain ⟨j, hj, hcell, hAs⟩ := (hs s).1 hmem
    obtain ⟨h1, h2, -⟩ := hne s hmem j hj hcell hAs
    omega
  · intro s hmem
    obtain ⟨j, hj, hcell, hAs⟩ := (hs s).1 hmem
    obtain ⟨h1, h2, h3⟩ := hne s hmem j hj hcell hAs
    omega

/-- Binding targets keeps the words of the listing: the operands that get their
targets have been patched, and nothing else has. -/
theorem CodeRel.patch (h : CodeRel job L p c) {A : Dest → Prop} {sites : List Site}
    (hs : Covers L p A sites) (hp : Patched sites c c') (ends elses : ℕ → Option ℕ)
    (hold : ∀ d, ¬A d → Listing.resolve { L with ends := ends, elses := elses } d = L.resolve d)
    (hnew : ∀ s ∈ sites, ∀ target,
      Listing.resolve { L with ends := ends, elses := elses } s.label.dest = some target →
      Jumps c'.word s.addr s.label target) :
    CodeRel job { L with ends := ends, elses := elses } p c' := by
  refine ⟨h.base, ?_, ?_, ?_, ?_, h.pairs, ?_⟩
  · rw [hp.shape.size]
    exact h.size
  · rw [hp.shape.options, h.options]
  · intro i hi
    rw [hp.word i fun s hmem => ?_, h.below i hi]
    obtain ⟨j, hj, -⟩ := (hs s).1 hmem
    have : i < L.base := hi
    omega
  · intro i w hw
    rw [hp.word _ (hs.avoids_word h hw)]
    exact h.words i w hw
  · intro i l target hl ht
    by_cases hA : A l.dest
    · exact hnew ⟨L.base + i, l⟩ ((hs _).2 ⟨i, rfl, hl, hA⟩) target ht
    · obtain ⟨hlo, hhi⟩ := hs.avoids_label h hl hA
      rw [hold l.dest hA] at ht
      exact (h.jumps i l target hl ht).congr (hp.word _ hlo) (hp.word _ hhi)

/-- A chain whose operands do not satisfy `A` is not touched. -/
theorem ChainRel.patch {kind : BlockKind} {id start : ℕ} {target : JumpTarget}
    (h : ChainRel L p c.word kind id start target) (hrel : CodeRel job L p c) {A : Dest → Prop}
    {sites : List Site} (hs : Covers L p A sites) (hp : Patched sites c c')
    (ends elses : ℕ → Option ℕ) (hA : ∀ d, Awaits kind id d → ¬A d) :
    ChainRel { L with ends := ends, elses := elses } p c'.word kind id start target := by
  refine ⟨h.loop, fun hk => ?_⟩
  obtain ⟨sites', hchain, hmem, hif⟩ := h.chain hk
  refine ⟨sites', hchain.congr fun s hs' => ?_, hmem, hif⟩
  obtain ⟨i, hi, hcell, ha⟩ := (hmem s).1 hs'
  obtain ⟨hlo, hhi⟩ := hs.avoids_label hrel hcell (hA _ ha)
  rw [hi]
  exact ⟨hp.word _ hlo, hp.word _ hhi⟩

/-- The identities after the end of a block is bound. -/
theorem IdsOk.close {opens : List (ℕ × BlockKind)} {id : ℕ} {k : BlockKind}
    (h : IdsOk L p nextId ((id, k) :: opens)) (a : ℕ) {elses : ℕ → Option ℕ}
    (helses : ∀ id', id' ≠ id → elses id' = L.elses id')
    (hself : k = .if_ → elses id ≠ none) (hself' : elses id = none → L.elses id = none) :
    IdsOk { L with ends := Function.update L.ends id (some a), elses := elses } p nextId opens := by
  have hnodup := h.nodup
  rw [List.map_cons, List.nodup_cons] at hnodup
  have hne : ∀ o ∈ opens, o.1 ≠ id := by
    intro o ho heq
    exact hnodup.1 (List.mem_map.2 ⟨o, ho, heq⟩)
  have hid : id < nextId := h.lt (id, k) List.mem_cons_self
  refine ⟨?_, hnodup.2, ?_, ?_, ?_, ?_⟩
  · intro o ho
    exact h.lt o (List.mem_cons_of_mem _ ho)
  · intro o ho
    simp only [Function.update_of_ne (hne o ho)]
    exact h.ends_none o (List.mem_cons_of_mem _ ho)
  · intro o ho hif
    have := h.elses_none o (List.mem_cons_of_mem _ ho) hif
    simp only
    rw [helses o.1 (hne o ho), this]
  · intro id' hid'
    have hne' : id' ≠ id := by omega
    simp only [Function.update_of_ne hne', helses id' hne']
    exact h.fresh id' hid'
  · intro i l hl
    have hok := h.labels i l hl
    cases hd : l.dest with
    | ret => trivial
    | back a => trivial
    | end_ id' =>
        rw [hd] at hok
        refine ⟨hok.1, fun hnone => ?_⟩
        by_cases hid' : id' = id
        · subst hid'
          simp at hnone
        · have hnone' : L.ends id' = none := by
            simpa only [Function.update_of_ne hid'] using hnone
          obtain ⟨k, hk, hloop⟩ := hok.2 hnone'
          rcases List.mem_cons.1 hk with heq | hk
          · cases heq
            exact absurd rfl hid'
          · exact ⟨k, hk, hloop⟩
    | else_ id' =>
        rw [hd] at hok
        refine ⟨hok.1, fun hnone => ?_⟩
        by_cases hid' : id' = id
        · subst hid'
          have hk := hok.2 (hself' hnone)
          rcases List.mem_cons.1 hk with heq | hk
          · cases heq
            exact absurd hnone (hself rfl)
          · exact absurd rfl (hne _ hk)
        · have hnone' : L.elses id' = none := by
            simp only at hnone
            rwa [helses id' hid'] at hnone
          rcases List.mem_cons.1 (hok.2 hnone') with heq | hk
          · cases heq
            exact absurd rfl hid'
          · exact hk

theorem CodeInv.chain_sites {b : Block} {f : ControlFrame}
    (h : CodeInv job L p nextId (b :: bs) (f :: fs) c) (hkind : b.kind ≠ .loop) :
    ∃ sites, Chained c.word f.target sites ∧ Covers L p (Awaits b.kind b.id) sites ∧
      (∀ s ∈ sites, s.addr + 1 < c.size ∧ job.code.size ≤ s.addr) := by
  obtain ⟨hchain, -⟩ := List.forall₂_cons.1 h.chains
  obtain ⟨sites, hsites, hcover, -⟩ := hchain.chain hkind
  refine ⟨sites, hsites, hcover, fun s hs => ?_⟩
  obtain ⟨i, hi, hcell, -⟩ := (hcover s).1 hs
  have hlt := h.code.lo_lt_size hcell
  have hbase := h.code.base
  omega

/-- The blocks below have other identities. -/
theorem CodeInv.id_ne {b : Block} (h : CodeInv job L p nextId (b :: bs) fs c) {b' : Block}
    (hb' : b' ∈ bs) : b'.id ≠ b.id :=
  id_ne_of_mem_eraseIdx h.ids.nodup_ids (k := 0) (b := b) rfl (by simpa using hb')

/-- The end of a loop: no branch waits for it. -/
theorem CodeInv.close_loop {b : Block} {f : ControlFrame}
    (h : CodeInv job L p nextId (b :: bs) (f :: fs) c) (hkind : b.kind = .loop) (a : ℕ) :
    CodeInv job { L with ends := Function.update L.ends b.id (some a) } p nextId bs fs c := by
  obtain ⟨-, hchains⟩ := List.forall₂_cons.1 h.chains
  have hids := h.ids
  rw [List.map_cons] at hids
  have hnodup := hids.nodup
  rw [List.map_cons, List.nodup_cons] at hnodup
  have hnone : ∀ (i : ℕ) (l : Label), (image L.entries ++ p)[i]? = some (Cell.lo l) →
      l.dest ≠ .end_ b.id := by
    intro i l hl hd
    have hok := hids.labels i l hl
    rw [hd] at hok
    obtain ⟨k, hk, hloop⟩ := hok.2 (hids.ends_none b.tag List.mem_cons_self)
    rcases List.mem_cons.1 hk with heq | hk
    · rw [Block.tag, hkind, Prod.mk.injEq] at heq
      exact hloop heq.2
    · exact hnodup.1 (List.mem_map.2 ⟨_, hk, rfl⟩)
  have hcover : Covers L p (fun d => d = .end_ b.id) [] := by
    intro s
    constructor
    · intro hs
      cases hs
    · rintro ⟨i, -, hcell, hd⟩
      exact absurd hd (hnone i s.label hcell)
  refine ⟨?_, ?_, ?_, h.encodable⟩
  · refine h.code.patch hcover (Patched.refl [] c) _ L.elses (fun d hd => ?_)
      (fun s hs => by cases hs)
    cases d with
    | ret => rfl
    | back a => rfl
    | end_ id =>
        have hne : id ≠ b.id := fun heq => hd (by rw [heq])
        simp only [Listing.resolve, Function.update_of_ne hne]
    | else_ id => rfl
  · refine IdsOk.close (k := .loop) ?_ a (fun _ _ => rfl) (fun hif => by cases hif) id
    rw [← hkind]
    exact hids
  · exact hchains.imp fun b' f' hchain => ⟨hchain.loop, hchain.chain⟩

/-- The end of a block whose operands have all been patched to jump here. An `if`
without an `else` arm goes on here, too. -/
theorem CodeInv.close {b : Block} {f : ControlFrame}
    (h : CodeInv job L p nextId (b :: bs) (f :: fs) c)
    {sites : List Site} (hcover : Covers L p (Awaits b.kind b.id) sites) {a : ℕ}
    (hp : Patched sites c c') (hjumps : ∀ s ∈ sites, Jumps c'.word s.addr s.label (addrOf a))
    {elses : ℕ → Option ℕ}
    (helses : elses = if b.kind = .if_ then Function.update L.elses b.id (some a) else L.elses) :
    CodeInv job { L with ends := Function.update L.ends b.id (some a), elses := elses } p nextId
      bs fs c' := by
  obtain ⟨-, hchains⟩ := List.forall₂_cons.1 h.chains
  have hne : ∀ id, id ≠ b.id → elses id = L.elses id := by
    intro id hid
    rw [helses]
    split
    · exact Function.update_of_ne hid _ _
    · rfl
  have hself : b.kind = .if_ → elses b.id = some a := by
    intro hif
    rw [helses, if_pos hif, Function.update_self]
  have hself' : b.kind ≠ .if_ → elses = L.elses := by
    intro hif
    rw [helses, if_neg hif]
  refine ⟨?_, ?_, ?_, h.encodable⟩
  · refine h.code.patch hcover hp _ _ (fun d hd => ?_) fun s hs target ht => ?_
    · cases d with
      | ret => rfl
      | back a => rfl
      | end_ id =>
          have hid : id ≠ b.id := fun heq => hd (Or.inl (by rw [heq]))
          simp only [Listing.resolve, Function.update_of_ne hid]
      | else_ id =>
          by_cases hid : id = b.id
          · have hif : b.kind ≠ .if_ := fun heq => hd (Or.inr ⟨heq, by rw [hid]⟩)
            simp only [Listing.resolve, hself' hif]
          · simp only [Listing.resolve, hne id hid]
    · obtain ⟨-, -, -, ha⟩ := (hcover s).1 hs
      have htarget : target = addrOf a := by
        rcases ha with hd | ⟨hif, hd⟩
        · rw [hd] at ht
          simpa [Listing.resolve] using ht.symm
        · rw [hd] at ht
          simpa [Listing.resolve, hself hif] using ht.symm
      rw [htarget]
      exact hjumps s hs
  · have hids := h.ids
    rw [List.map_cons] at hids
    refine hids.close a hne (fun hif => ?_) fun hnone => ?_
    · rw [hself hif]
      exact Option.some_ne_none a
    · by_cases hif : b.kind = .if_
      · rw [hself hif] at hnone
        cases hnone
      · rwa [hself' hif] at hnone
  · refine forall₂_imp_mem hchains fun b' hb' f' hchain => ?_
    exact hchain.patch h.code hcover hp _ _ fun d hd => not_awaits_of_ne (h.id_ne hb').symm hd

/-! ### The `else` arm -/

/-- The start of an `else` arm: the false branch of the `if` jumps here, and the
branches that wait for its end go on to wait for it. -/
theorem CodeInv.else_ {b b' : Block} {f f' : ControlFrame}
    (h : CodeInv job L p nextId (b :: bs) (f :: fs) c) (hkind : b.kind = .if_)
    {init : List Site} {tail : Site} (hcover : Covers L p (Awaits b.kind b.id) (init ++ [tail]))
    (htail : tail.label.dest = .else_ b.id) (hinit : ∀ s ∈ init, s.label.dest = .end_ b.id)
    {a : ℕ} (hp : Patched (init ++ [tail]) c c')
    (hjump : Jumps c'.word tail.addr tail.label (addrOf a)) (hid : b'.id = b.id)
    (hkind' : b'.kind = .block) (hchain : Chained c'.word f'.target init) :
    CodeInv job { L with elses := Function.update L.elses b.id (some a) } p nextId (b' :: bs)
      (f' :: fs) c' := by
  obtain ⟨-, hchains⟩ := List.forall₂_cons.1 h.chains
  have hids := h.ids
  rw [List.map_cons] at hids
  have htag : b.tag ∈ b.tag :: bs.map Block.tag := List.mem_cons_self
  have hends : L.ends b.id = none := hids.ends_none b.tag htag
  have htail_mem : tail ∈ init ++ [tail] :=
    List.mem_append_right init (List.mem_singleton_self tail)
  refine ⟨?_, ?_, ?_, h.encodable⟩
  · refine h.code.patch hcover hp L.ends _ (fun d hd => ?_) fun s hs target ht => ?_
    · cases d with
      | ret => rfl
      | back a => rfl
      | end_ id => rfl
      | else_ id =>
          have hid : id ≠ b.id := fun heq => hd (Or.inr ⟨hkind, by rw [heq]⟩)
          simp only [Listing.resolve, Function.update_of_ne hid]
    · rcases List.mem_append.1 hs with hs | hs
      · rw [hinit s hs] at ht
        simp [Listing.resolve, hends] at ht
      · rw [List.mem_singleton.1 hs] at ht ⊢
        rw [htail] at ht
        have htarget : target = addrOf a := by simpa [Listing.resolve] using ht.symm
        rw [htarget]
        exact hjump
  · refine ⟨?_, ?_, ?_, ?_, ?_, ?_⟩
    · intro o ho
      rw [List.map_cons, Block.tag, hid] at ho
      rcases List.mem_cons.1 ho with rfl | ho
      · exact hids.lt b.tag htag
      · exact hids.lt o (List.mem_cons_of_mem _ ho)
    · have := hids.nodup
      rw [List.map_cons] at this ⊢
      rwa [Block.tag, hid]
    · intro o ho
      rw [List.map_cons, Block.tag, hid] at ho
      rcases List.mem_cons.1 ho with rfl | ho
      · exact hends
      · exact hids.ends_none o (List.mem_cons_of_mem _ ho)
    · intro o ho hif
      rw [List.map_cons, Block.tag] at ho
      rcases List.mem_cons.1 ho with rfl | ho
      · rw [hkind'] at hif
        cases hif
      · have hne : o.1 ≠ b.id := by
          have hnodup := hids.nodup
          rw [List.map_cons, List.nodup_cons] at hnodup
          intro heq
          exact hnodup.1 (List.mem_map.2 ⟨o, ho, heq⟩)
        simp only [Function.update_of_ne hne]
        exact hids.elses_none o (List.mem_cons_of_mem _ ho) hif
    · intro id hid'
      have hne : id ≠ b.id := by
        have := hids.lt b.tag htag
        rw [Block.tag] at this
        omega
      simp only [Function.update_of_ne hne]
      exact hids.fresh id hid'
    · intro i l hl
      have hok := hids.labels i l hl
      cases hd : l.dest with
      | ret => trivial
      | back a => trivial
      | end_ id =>
          rw [hd] at hok
          refine ⟨hok.1, fun hnone => ?_⟩
          obtain ⟨k, hk, hloop⟩ := hok.2 hnone
          rcases List.mem_cons.1 hk with heq | hk
          · refine ⟨.block, ?_, by simp⟩
            rw [Block.tag, Prod.mk.injEq] at heq
            rw [List.map_cons, Block.tag, hid, hkind', heq.1]
            exact List.mem_cons_self
          · exact ⟨k, List.mem_cons_of_mem _ hk, hloop⟩
      | else_ id =>
          rw [hd] at hok
          refine ⟨hok.1, fun hnone => ?_⟩
          by_cases heq : id = b.id
          · rw [heq] at hnone
            simp at hnone
          · simp only [Function.update_of_ne heq] at hnone
            rcases List.mem_cons.1 (hok.2 hnone) with heq' | hk
            · rw [Block.tag, Prod.mk.injEq] at heq'
              exact absurd heq'.1 heq
            · exact List.mem_cons_of_mem _ hk
  · refine List.Forall₂.cons ?_ (forall₂_imp_mem hchains fun b'' hb'' f'' hchain'' => ?_)
    · refine ⟨fun hloop => ?_, fun _ => ⟨init, hchain, fun s => ?_, fun hif => ?_⟩⟩
      · rw [hkind'] at hloop
        cases hloop
      · constructor
        · intro hs
          obtain ⟨i, hi, hcell, -⟩ := (hcover s).1 (List.mem_append_left [tail] hs)
          refine ⟨i, hi, hcell, Or.inl ?_⟩
          rw [hid]
          exact hinit s hs
        · rintro ⟨i, hi, hcell, ha⟩
          have hd : s.label.dest = .end_ b.id := by
            rcases ha with hd | ⟨hif, -⟩
            · rw [hd, hid]
            · rw [hkind'] at hif
              cases hif
          have hs := (hcover s).2 ⟨i, hi, hcell, Or.inl hd⟩
          rcases List.mem_append.1 hs with hs | hs
          · exact hs
          · rw [List.mem_singleton.1 hs, htail] at hd
            cases hd
      · rw [hkind'] at hif
        cases hif
    · exact hchain''.patch h.code hcover hp L.ends _ fun d hd =>
        not_awaits_of_ne (h.id_ne hb'').symm hd

end Close

end SpaceWasm
