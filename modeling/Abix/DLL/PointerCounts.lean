import Abix.DLL.Pointers

/-! When the counts of a block are the numbers of its handles, and what follows from it: the callback
runs once, the block is freed once, and nothing reads it afterwards. -/
namespace Abix.DLL.Pointers
open Abix.Concurrency
variable {H Obj : Type} {w w' : World H Obj} {blk : Block Obj}

inductive Role where
  | owning
  | observing
  | leaving
  deriving DecidableEq, Repr

def Handle.role (hd : Handle) : Role :=
  if hd.leaving then .leaving else if hd.kind.owns then .owning else .observing

theorem Handle.role_eq_leaving {hd : Handle} : hd.role = .leaving ↔ hd.leaving = true := by
  rw [role]
  split
  · simp_all
  · split <;> simp_all

theorem Handle.role_owning {hd : Handle} (hk : hd.kind.owns = true) (hl : hd.leaving = false) : hd.role = .owning := by
  simp [role, hk, hl]

theorem Handle.role_observing {hd : Handle} (hk : hd.kind.owns = false) (hl : hd.leaving = false) :
    hd.role = .observing := by
  simp [role, hk, hl]

/-- One for storage with a handle on the block in that role. -/
def shares (r : Role) (b : Nat) : Option Handle → Nat
  | none => 0
  | some hd => if hd.cb = some b ∧ hd.role = r then 1 else 0

section Count
variable [Fintype H]

def World.count (w : World H Obj) (r : Role) (b : Nat) : Nat := total (shares r b) w.handles

/-- The callback is called when the last owner goes, and only then; the block is freed when nothing
refers to it, and only then. While no callback runs, no handle is leaving. -/
structure Sound (w : World H Obj) : Prop where
  fault : w.fault = false
  destroyed : ∀ b < w.next, (w.blocks b).destroyed =
    if (w.blocks b).managed ∧ ¬ (w.blocks b).released ∧ w.count .owning b = 0 then 1 else 0
  freed : ∀ b < w.next, (w.blocks b).freed =
    if w.count .owning b = 0 ∧ w.count .observing b = 0 ∧ w.count .leaving b = 0 then 1 else 0
  idle : w.frames = [] → ∀ b, w.count .leaving b = 0

end Count

def World.Leaving (w : World H Obj) (h : H) : Prop := ∃ hd, w.handles h = some hd ∧ hd.leaving = true

def World.Dying (w : World H Obj) (b : Nat) : Prop := ∃ f ∈ w.frames, w.cb f.handle = some b

def World.Room (w : World H Obj) (kind : Kind) (b : Nat) : Prop := ((w.blocks b).count kind).toNat + 1 < 2 ^ 32

/-- The handle is not the last one that observes a block whose callback runs. -/
def World.MayDrop (w : World H Obj) (h : H) : Prop :=
  ∀ hd, w.handles h = some hd → hd.kind.owns = false → ∀ b, hd.cb = some b → w.Dying b → (w.blocks b).weaks ≠ 1

def World.CallsBack (w : World H Obj) (h : H) : Prop :=
  ∃ hd, w.handles h = some hd ∧ hd.kind.owns = true ∧
    ∃ b, hd.cb = some b ∧ (w.blocks b).strongs = 1 ∧ (w.blocks b).destroy = true

/-- The condition on an operation. A handle whose reset is under way is left alone, but for looking
at it and observing its block; a callback does not drop the last observer of its block; when it
returns into an assignment, the source is there; and no count is at its maximum when it is
incremented. -/
def Orderly (w : World H Obj) : Op H Obj → Prop
  | .construct .. | .release _ | .read _ => True
  | .copy _ kind o => (kind.owns → ¬ w.Leaving o) ∧ ∀ b, w.cb o = some b → w.Room kind b
  | .move _ o => ¬ w.Leaving o
  | .assign h o => h ≠ o → ¬ w.Leaving h ∧ w.MayDrop h ∧
      ∀ hd, w.handles h = some hd → (hd.kind.owns → ¬ w.Leaving o) ∧
        ∀ b, w.cb o = some b → w.CallsBack h ∨ hd.cb = some b ∨ w.Room hd.kind b
  | .moveAssign h o => h ≠ o → ¬ w.Leaving h ∧ ¬ w.Leaving o ∧ w.MayDrop h
  | .reset h | .destroy h => ¬ w.Leaving h ∧ w.MayDrop h
  | .lock _ o => ∀ b, w.cb o = some b → (w.blocks b).strongs = 0 ∨ w.Room .sharedPtr b
  | .returns => ∀ f frames, w.frames = f :: frames → ∀ o, f.after.source = some o →
      ∃ src, w.handles o = some src ∧ src.kind.owns ∧
        (f.after = .assigned o → ∀ b, src.cb = some b → w.Room f.kind b)

instance (w : World H Obj) (h : H) : Decidable (w.Leaving h) :=
  inferInstanceAs (Decidable (∃ hd ∈ w.handles h, hd.leaving = true))

instance (w : World H Obj) (b : Nat) : Decidable (w.Dying b) :=
  inferInstanceAs (Decidable (∃ f ∈ w.frames, w.cb f.handle = some b))

instance (w : World H Obj) (kind : Kind) (b : Nat) : Decidable (w.Room kind b) :=
  inferInstanceAs (Decidable (_ < _))

instance (w : World H Obj) (h : H) : Decidable (w.MayDrop h) :=
  inferInstanceAs (Decidable (∀ hd ∈ w.handles h, hd.kind.owns = false → ∀ b ∈ hd.cb, w.Dying b → (w.blocks b).weaks ≠ 1))

instance (w : World H Obj) (h : H) : Decidable (w.CallsBack h) :=
  inferInstanceAs (Decidable (∃ hd ∈ w.handles h, hd.kind.owns = true ∧
    ∃ b ∈ hd.cb, (w.blocks b).strongs = 1 ∧ (w.blocks b).destroy = true))

private theorem orderly_returns : Orderly w (.returns : Op H Obj) ↔ ∀ f ∈ w.frames.head?, ∀ o ∈ f.after.source,
    ∃ src ∈ w.handles o, src.kind.owns ∧ (f.after = .assigned o → ∀ b ∈ src.cb, w.Room f.kind b) := by
  simp only [Orderly]
  cases w.frames <;> simp

instance [DecidableEq H] (w : World H Obj) : (op : Op H Obj) → Decidable (Orderly w op)
  | .construct .. | .release _ | .read _ => inferInstanceAs (Decidable True)
  | .copy _ kind o =>
    inferInstanceAs (Decidable ((kind.owns → ¬ w.Leaving o) ∧ ∀ b ∈ w.cb o, w.Room kind b))
  | .move _ o => inferInstanceAs (Decidable (¬ w.Leaving o))
  | .assign h o =>
    inferInstanceAs (Decidable (h ≠ o → ¬ w.Leaving h ∧ w.MayDrop h ∧
      ∀ hd ∈ w.handles h, (hd.kind.owns → ¬ w.Leaving o) ∧
        ∀ b ∈ w.cb o, w.CallsBack h ∨ hd.cb = some b ∨ w.Room hd.kind b))
  | .moveAssign h o => inferInstanceAs (Decidable (h ≠ o → ¬ w.Leaving h ∧ ¬ w.Leaving o ∧ w.MayDrop h))
  | .reset h | .destroy h => inferInstanceAs (Decidable (¬ w.Leaving h ∧ w.MayDrop h))
  | .lock _ o => inferInstanceAs (Decidable (∀ b ∈ w.cb o, (w.blocks b).strongs = 0 ∨ w.Room .sharedPtr b))
  | .returns => decidable_of_iff' _ orderly_returns

structure Kept (blk : Block Obj) (owning observing leaving : Nat) : Prop where
  strongs : blk.strongs.toNat = owning
  weaks : blk.weaks.toNat = observing
  callback : blk.destroy = (blk.managed && !blk.released)
  owned : 0 < owning → leaving = 0 ∧ blk.destroyed = 0 ∧ blk.freed = 0
  gone : owning = 0 → leaving ≤ 1 ∧ blk.destroyed = (if blk.managed && !blk.released then 1 else 0) ∧
    blk.freed = if leaving = 0 ∧ observing = 0 then 1 else 0

namespace Kept
variable {o v l : Nat}

theorem freed_eq (hk : Kept blk o v l) (h : 0 < o + v + l) : blk.freed = 0 := by
  by_cases ho : 0 < o
  · exact (hk.owned ho).2.2
  · obtain ⟨-, -, hfreed⟩ := hk.gone (by omega)
    rw [hfreed, if_neg (by omega)]

private theorem addOwner (hk : Kept blk o v l) (ho : 0 < o) (hroom : o + 1 < 2 ^ 32) :
    Kept { blk with strongs := blk.strongs + 1 } (o + 1) v l where
  strongs := by
    have := hk.strongs
    simp only [UInt32.toNat_add, UInt32.toNat_one]
    omega
  weaks := hk.weaks
  callback := hk.callback
  owned _ := hk.owned ho
  gone h := by omega

private theorem addObserver (hk : Kept blk o v l) (h : 0 < o + v + l) (hroom : v + 1 < 2 ^ 32) :
    Kept { blk with weaks := blk.weaks + 1 } o (v + 1) l where
  strongs := hk.strongs
  weaks := by
    have := hk.weaks
    simp only [UInt32.toNat_add, UInt32.toNat_one]
    omega
  callback := hk.callback
  owned := hk.owned
  gone ho := by
    obtain ⟨hl, hdestroyed, -⟩ := hk.gone ho
    exact ⟨hl, hdestroyed, by simp [hk.freed_eq h]⟩

theorem loseOwner (hk : Kept blk (o + 1) v l) (ho : 0 < o) : Kept { blk with strongs := blk.strongs - 1 } o v l where
  strongs := by
    have := hk.strongs
    have hle : (1 : UInt32) ≤ blk.strongs := UInt32.le_iff_toNat_le.mpr (by simp only [UInt32.toNat_one]; omega)
    simp only [UInt32.toNat_sub_of_le _ _ hle, UInt32.toNat_one]
    omega
  weaks := hk.weaks
  callback := hk.callback
  owned _ := hk.owned (Nat.succ_pos o)
  gone h := by omega

/-- The last owner leaves; its callback runs if there is one. -/
theorem lastOwner (hk : Kept blk 1 v l) :
    Kept { blk with strongs := blk.strongs - 1, destroyed := if blk.destroy then blk.destroyed + 1 else blk.destroyed }
      0 v (l + 1) := by
  obtain ⟨rfl, hdestroyed, hfreed⟩ := hk.owned Nat.one_pos
  have hone : blk.strongs = 1 := UInt32.toNat_inj.mp (hk.strongs.trans UInt32.toNat_one.symm)
  refine ⟨?_, hk.weaks, hk.callback, fun h => absurd h (Nat.lt_irrefl 0), fun _ => ⟨Nat.le_refl 1, ?_, ?_⟩⟩
  · rw [hone]
    rfl
  · simp only [hdestroyed, hk.callback]
  · simpa using hfreed

theorem endReset (hk : Kept blk 0 v (l + 1)) :
    Kept ({ blk with ptr := none, freed := if blk.weaks = 0 then blk.freed + 1 else blk.freed } : Block Obj) 0 v l := by
  obtain ⟨hl, hdestroyed, hfreed⟩ := hk.gone rfl
  obtain rfl : l = 0 := by omega
  have hnot : blk.freed = 0 := hk.freed_eq (by omega)
  refine ⟨hk.strongs, hk.weaks, hk.callback, fun h => absurd h (Nat.lt_irrefl 0), fun _ => ⟨Nat.zero_le 1, hdestroyed, ?_⟩⟩
  have hweaks : blk.weaks = 0 ↔ v = 0 := by
    rw [← hk.weaks, ← UInt32.toNat_inj, UInt32.toNat_zero]
  by_cases hv : v = 0 <;> simp [hweaks, hv, hnot]

private theorem loseObserver (hk : Kept blk o (v + 1) l) (hlast : v = 0 → l = 0) :
    Kept { blk with weaks := blk.weaks - 1,
                    freed := if blk.weaks - 1 = 0 ∧ blk.strongs = 0 then blk.freed + 1 else blk.freed } o v l := by
  have hweaks : (blk.weaks - 1).toNat = v := by
    have := hk.weaks
    have hle : (1 : UInt32) ≤ blk.weaks := UInt32.le_iff_toNat_le.mpr (by simp only [UInt32.toNat_one]; omega)
    simp only [UInt32.toNat_sub_of_le _ _ hle, UInt32.toNat_one]
    omega
  have hnot : blk.freed = 0 := hk.freed_eq (by omega)
  have hv : blk.weaks - 1 = 0 ↔ v = 0 := by
    rw [← hweaks, ← UInt32.toNat_inj, UInt32.toNat_zero]
  have ho : blk.strongs = 0 ↔ o = 0 := by
    rw [← hk.strongs, ← UInt32.toNat_inj, UInt32.toNat_zero]
  refine ⟨hk.strongs, hweaks, hk.callback, fun hpos => ?_, fun hzero => ?_⟩
  · obtain ⟨hl, hdestroyed, -⟩ := hk.owned hpos
    exact ⟨hl, hdestroyed, by simp [ho, Nat.ne_of_gt hpos, hnot]⟩
  · obtain ⟨hl, hdestroyed, -⟩ := hk.gone hzero
    refine ⟨hl, hdestroyed, ?_⟩
    by_cases hvz : v = 0
    · simp [hv, ho, hzero, hvz, hlast hvz, hnot]
    · simp [hv, hvz, hnot]

theorem handOn (hk : Kept blk 1 v l) :
    Kept ({ blk with ptr := none, destroy := false, released := true } : Block Obj) 1 v l :=
  ⟨hk.strongs, hk.weaks, by simp, hk.owned, nofun⟩

theorem fresh (p : Option Obj) (d : Bool) :
    Kept { ptr := p, destroy := d, strongs := 1, managed := d } 1 0 0 :=
  ⟨rfl, rfl, by simp, fun _ => ⟨rfl, rfl, rfl⟩, nofun⟩

end Kept

section Worlds
variable [DecidableEq H] {h : H} {b : Nat} {kind : Kind}

omit [DecidableEq H] in
theorem cb_of {hd : Handle} (hh : w.handles h = some hd) (hb : hd.cb = some b) : w.cb h = some b := by
  rw [World.cb, hh]
  exact hb

omit [DecidableEq H] in
theorem access_eq (f : Block Obj → Block Obj) (hnot : (w.blocks b).freed = 0) :
    w.access b f = w.set b (f (w.blocks b)) := by
  simp [World.access, World.set, hnot]

private theorem attach_eq (hnot : (w.blocks b).freed = 0) :
    w.attach h kind (some b) = (w.put h (some { kind, cb := some b })).set b ((w.blocks b).increment kind) :=
  access_eq _ hnot

omit [DecidableEq H] in
theorem set_set (blk blk' : Block Obj) : (w.set b blk).set b blk' = w.set b blk' := by
  simp [World.set]

private theorem put_put (hd hd' : Option Handle) : (w.put h hd).put h hd' = w.put h hd' := by
  simp [World.put]

omit [DecidableEq H] in
@[simp] theorem blocks_set_self (blk : Block Obj) : (w.set b blk).blocks b = blk := Function.update_self ..


@[simp] theorem handles_put_self (hd : Option Handle) : (w.put h hd).handles h = hd := Function.update_self ..

theorem handles_put_of_ne {h' : H} (hne : h' ≠ h) (hd : Option Handle) : (w.put h hd).handles h' = w.handles h' :=
  Function.update_of_ne hne _ _

/-- A world whose one block was written and whose one handle was written. -/
theorem set_put (blk : Block Obj) (hd : Option Handle) : (w.set b blk).put h hd = (w.put h hd).set b blk := rfl

private theorem reset_more (hnot : (w.blocks b).freed = 0) (hmore : (w.blocks b).strongs ≠ 1) (after : After H) :
    w.reset h kind b after =
      ((w.put h (some { kind })).set b { w.blocks b with strongs := (w.blocks b).strongs - 1 }).finish h kind after := by
  have hsub : (w.blocks b).strongs - 1 ≠ 0 := by rwa [ne_eq, UInt32.sub_eq_iff_eq_add, UInt32.zero_add]
  simp only [World.reset, access_eq _ hnot, blocks_set_self, hsub, if_false, set_put]

private theorem reset_last (hnot : (w.blocks b).freed = 0) (hone : (w.blocks b).strongs = 1) (after : After H) :
    w.reset h kind b after =
      if (w.blocks b).destroy then
        { (w.put h (some { kind, cb := some b, leaving := true })).set b
            { w.blocks b with strongs := (w.blocks b).strongs - 1, destroyed := (w.blocks b).destroyed + 1 } with
          frames := { handle := h, kind, after } :: w.frames }
      else
        (((w.put h (some { kind, cb := some b, leaving := true })).set b
          { w.blocks b with strongs := (w.blocks b).strongs - 1 }).endReset h kind).finish h kind after := by
  have hsub : (w.blocks b).strongs - 1 = 0 := by rw [UInt32.sub_eq_iff_eq_add, UInt32.zero_add, hone]
  simp only [World.reset, access_eq _ hnot, blocks_set_self, hsub, if_true, set_put]
  rw [access_eq]
  · simp only [blocks_set_self, set_set]
  · simpa using hnot

theorem endReset_eq (hcb : w.cb h = some b) (hnot : (w.blocks b).freed = 0) :
    w.endReset h kind = (w.put h (some { kind })).set b
      { w.blocks b with
        ptr := none
        freed := if (w.blocks b).weaks = 0 then (w.blocks b).freed + 1 else (w.blocks b).freed } := by
  simp only [World.endReset, hcb, access_eq _ hnot, blocks_set_self]
  by_cases hweaks : (w.blocks b).weaks = 0
  · simp only [hweaks, if_true, World.dealloc, blocks_set_self, set_set]
    rfl
  · simp only [hweaks, if_false]
    rfl

private theorem endReset_leaving (w : World H Obj) (h : H) (kind : Kind) (b : Nat) (blk : Block Obj) (hnot : blk.freed = 0) :
    ((w.put h (some { kind, cb := some b, leaving := true })).set b blk).endReset h kind =
      (w.put h (some { kind })).set b
        { blk with ptr := none, freed := if blk.weaks = 0 then blk.freed + 1 else blk.freed } := by
  have hcb : ((w.put h (some { kind, cb := some b, leaving := true })).set b blk).cb h = some b := by
    simp [World.cb, World.set, World.put]
  rw [endReset_eq hcb (by simpa using hnot)]
  simp only [blocks_set_self, set_put, put_put, set_set]

theorem releaseWeak_eq (h : H) (kind : Kind) (hnot : (w.blocks b).freed = 0) :
    w.releaseWeak h kind b = (w.put h (some { kind })).set b
      { w.blocks b with
          weaks := (w.blocks b).weaks - 1
          freed := if (w.blocks b).weaks - 1 = 0 ∧ (w.blocks b).strongs = 0 then (w.blocks b).freed + 1
            else (w.blocks b).freed } := by
  simp only [World.releaseWeak, access_eq _ hnot, blocks_set_self]
  by_cases hlast : (w.blocks b).weaks - 1 = 0 ∧ (w.blocks b).strongs = 0
  · rw [if_pos hlast, if_pos hlast, World.dealloc, blocks_set_self, set_set]
    rfl
  · rw [if_neg hlast, if_neg hlast]
    rfl

end Worlds

section Invariant
variable [DecidableEq H] [Fintype H]

/-- The counts of every block are the numbers of its handles. -/
structure Inv (w : World H Obj) : Prop where
  fault : w.fault = false
  bounded : ∀ h b, w.cb h = some b → b < w.next
  kept : ∀ b < w.next, Kept (w.blocks b) (w.count .owning b) (w.count .observing b) (w.count .leaving b)

variable {h o : H} {hd src : Handle} {b c : Nat} {kind : Kind} {r : Role}

theorem count_put (w : World H Obj) (h : H) (hd : Option Handle) (r : Role) (b : Nat) :
    (w.put h hd).count r b + shares r b (w.handles h) = w.count r b + shares r b hd :=
  total_update (shares r b) w.handles h hd

theorem shares_of_cb_ne (hd : Option Handle) (h : hd.bind Handle.cb ≠ some b) : shares r b hd = 0 := by
  cases hd with
  | none => rfl
  | some x => exact if_neg fun hx => h hx.1

theorem shares_some (hb : hd.cb = some b) (r : Role) : shares r b (some hd) = if hd.role = r then 1 else 0 := by
  simp only [shares, hb, true_and]

omit [DecidableEq H] in
theorem count_pos (hh : w.handles h = some hd) (hb : hd.cb = some b) : 0 < w.count hd.role b := by
  have hle : shares hd.role b (w.handles h) ≤ w.count hd.role b := held_le_total (shares hd.role b) w.handles h
  rw [hh, shares_some hb, if_pos rfl] at hle
  exact hle

omit [DecidableEq H] in
theorem count_eq_zero (hb : ∀ h, w.cb h ≠ some b) : w.count r b = 0 :=
  Finset.sum_eq_zero fun h _ => shares_of_cb_ne _ (hb h)

omit [DecidableEq H] in
theorem Inv.count_ne_zero (hi : Inv w) (hh : w.handles h = some hd) (hb : hd.cb = some b) (hl : hd.leaving = false) :
    (w.blocks b).count hd.kind ≠ 0 := by
  intro hzero
  have hkept := hi.kept b (hi.bounded h b (cb_of hh hb))
  have hpos := count_pos hh hb
  cases hk : hd.kind.owns with
  | true =>
    rw [Handle.role_owning hk hl, ← hkept.strongs] at hpos
    rw [Block.count, if_pos hk] at hzero
    rw [hzero] at hpos
    exact Nat.lt_irrefl 0 hpos
  | false =>
    rw [Handle.role_observing hk hl, ← hkept.weaks] at hpos
    rw [Block.count, if_neg (by simp [hk])] at hzero
    rw [hzero] at hpos
    exact Nat.lt_irrefl 0 hpos

omit [DecidableEq H] in
theorem Inv.freed_eq (hi : Inv w) (hh : w.handles h = some hd) (hb : hd.cb = some b) : (w.blocks b).freed = 0 := by
  have hlt : b < w.next := hi.bounded h b (cb_of hh hb)
  refine (hi.kept b hlt).freed_eq ?_
  have hpos := count_pos hh hb
  cases hr : hd.role <;> rw [hr] at hpos <;> omega

/-- A change of one handle and of the block it points to before or afterwards. -/
theorem Inv.change (hi : Inv w) {hd : Option Handle} {blk : Block Obj} (hb : b < w.next)
    (hold : ∀ c, w.cb h = some c → c = b) (hnew : ∀ c, hd.bind Handle.cb = some c → c = b)
    (hkept : ∀ o v l, o + shares .owning b (w.handles h) = w.count .owning b + shares .owning b hd →
      v + shares .observing b (w.handles h) = w.count .observing b + shares .observing b hd →
      l + shares .leaving b (w.handles h) = w.count .leaving b + shares .leaving b hd → Kept blk o v l) :
    Inv ((w.put h hd).set b blk) where
  fault := hi.fault
  bounded := by
    intro h' c hc
    by_cases hh : h' = h
    · subst hh
      rw [hnew c (by simpa [World.cb, World.set, World.put] using hc)]
      exact hb
    · exact hi.bounded h' c (by simpa [World.cb, World.set, World.put, hh] using hc)
  kept := by
    intro c hc
    by_cases hcb : c = b
    · subst hcb
      rw [blocks_set_self]
      exact hkept _ _ _ (count_put w h hd _ c) (count_put w h hd _ c) (count_put w h hd _ c)
    · have hsame (r : Role) : ((w.put h hd).set b blk).count r c = w.count r c := by
        have hput := count_put w h hd r c
        rw [shares_of_cb_ne (w.handles h) fun hc' => hcb (hold c hc'),
          shares_of_cb_ne hd fun hc' => hcb (hnew c hc')] at hput
        exact hput
      have hblock : ((w.put h hd).set b blk).blocks c = w.blocks c := Function.update_of_ne hcb _ _
      rw [hsame, hsame, hsame, hblock]
      exact hi.kept c hc

/-- A handle that lets go of its block is one less in its role. -/
theorem Inv.letGo (hi : Inv w) (hh : w.handles h = some hd) (hb : hd.cb = some b)
    (hkept : ∀ o v l, o + (if hd.role = .owning then 1 else 0) = w.count .owning b →
      v + (if hd.role = .observing then 1 else 0) = w.count .observing b →
      l + (if hd.role = .leaving then 1 else 0) = w.count .leaving b → Kept blk o v l) :
    Inv ((w.put h (some { kind })).set b blk) := by
  have hcb : w.cb h = some b := cb_of hh hb
  refine hi.change (hi.bounded h b hcb) (fun c hc => Option.some.inj (hc.symm.trans hcb)) (fun c hc => by cases hc) ?_
  intro o v l h₁ h₂ h₃
  rw [hh, shares_some hb, shares_of_cb_ne (some { kind }) nofun, Nat.add_zero] at h₁ h₂ h₃
  exact hkept o v l h₁ h₂ h₃

omit [DecidableEq H] in
/-- A change of a block that agrees with its handles. -/
theorem Inv.set (hi : Inv w) (hkept : Kept blk (w.count .owning b) (w.count .observing b) (w.count .leaving b)) :
    Inv (w.set b blk) where
  fault := hi.fault
  bounded := hi.bounded
  kept := by
    intro c hc
    by_cases hcb : c = b
    · subst hcb
      rw [blocks_set_self]
      exact hkept
    · have hblock : (w.set b blk).blocks c = w.blocks c := Function.update_of_ne hcb _ _
      rw [hblock]
      exact hi.kept c hc

/-- A change of storage that points nowhere before and afterwards. -/
theorem Inv.put (hi : Inv w) {hd : Option Handle} (hold : w.cb h = none) (hnew : hd.bind Handle.cb = none) :
    Inv (w.put h hd) where
  fault := hi.fault
  bounded := by
    intro h' c hc
    by_cases hh : h' = h
    · subst hh
      simp [World.cb, World.put, hnew] at hc
    · exact hi.bounded h' c (by simpa [World.cb, World.put, hh] using hc)
  kept := by
    intro c hc
    have hsame (r : Role) : (w.put h hd).count r c = w.count r c := by
      have hput := count_put w h hd r c
      rw [shares_of_cb_ne (w.handles h) (by rw [← World.cb, hold]; nofun),
        shares_of_cb_ne hd (by rw [hnew]; nofun)] at hput
      exact hput
    rw [hsame, hsame, hsame]
    exact hi.kept c hc

/-- A handle that points to a block is one more handle on it. -/
theorem Inv.attach (hi : Inv w) (hfree : w.cb h = none) (ho : w.handles o = some src) (hb : src.cb = some b)
    (howns : kind.owns → 0 < w.count .owning b) (hroom : w.Room kind b) : Inv (w.attach h kind (some b)) := by
  have hlt : b < w.next := hi.bounded o b (cb_of ho hb)
  have hkept := hi.kept b hlt
  have hold (r : Role) : shares r b (w.handles h) = 0 := shares_of_cb_ne _ (by rw [← World.cb, hfree]; nofun)
  have hsome : 0 < w.count .owning b + w.count .observing b + w.count .leaving b := by
    have hpos := count_pos ho hb
    cases hr : src.role <;> rw [hr] at hpos <;> omega
  rw [attach_eq (hi.freed_eq ho hb)]
  refine hi.change hlt (fun c hc => by simp [hfree] at hc) (fun c hc => (Option.some.inj hc).symm) fun o' v l h₁ h₂ h₃ => ?_
  rw [hold] at h₁ h₂ h₃
  cases hk : kind.owns with
  | true =>
    have hrole : ({ kind, cb := some b } : Handle).role = .owning := Handle.role_owning hk rfl
    simp only [shares_some, hrole, reduceCtorEq, if_true, if_false, Nat.add_zero] at h₁ h₂ h₃
    subst h₁ h₂ h₃
    simp only [World.Room, Block.count, hk, if_true, hkept.strongs] at hroom
    simpa only [Block.increment, hk, if_true] using hkept.addOwner (howns hk) hroom
  | false =>
    have hrole : ({ kind, cb := some b } : Handle).role = .observing := Handle.role_observing hk rfl
    simp only [shares_some, hrole, reduceCtorEq, if_true, if_false, Nat.add_zero] at h₁ h₂ h₃
    subst h₁ h₂ h₃
    simp only [World.Room, Block.count, hk, if_false, Bool.false_eq_true, hkept.weaks] at hroom
    simpa only [Block.increment, hk, if_false, Bool.false_eq_true] using hkept.addObserver hsome hroom

/-- What one handle has, another one has instead. -/
theorem Inv.transfer (hi : Inv w) (hfree : w.cb h = none) (hne : h ≠ o) (ho : w.handles o = some src)
    (hl : src.leaving = false) : Inv (w.transfer h o src) where
  fault := hi.fault
  bounded := by
    intro h' c hc
    simp only [World.cb, World.transfer, World.put] at hc
    by_cases hho : h' = o
    · subst hho
      simp at hc
    · rw [Function.update_of_ne hho] at hc
      by_cases hhh : h' = h
      · subst hhh
        rw [Function.update_self] at hc
        exact hi.bounded o c (cb_of ho hc)
      · exact hi.bounded h' c (by rwa [Function.update_of_ne hhh] at hc)
  kept := by
    intro c hc
    have hsame (r : Role) : (w.transfer h o src).count r c = w.count r c := by
      have hh := count_put w h (some { kind := src.kind, cb := src.cb }) r c
      have hho := count_put (w.put h (some { kind := src.kind, cb := src.cb })) o (some { src with cb := none }) r c
      have hsrc : (w.put h (some { kind := src.kind, cb := src.cb })).handles o = some src := by
        simp [World.put, Function.update_of_ne (Ne.symm hne), ho]
      have hrole : shares r c (some { kind := src.kind, cb := src.cb }) = shares r c (some src) := by
        simp [shares, Handle.role, hl]
      rw [shares_of_cb_ne (w.handles h) (by rw [← World.cb, hfree]; nofun), hrole] at hh
      rw [hsrc, shares_of_cb_ne (some { src with cb := none }) nofun] at hho
      rw [World.transfer]
      omega
    rw [hsame, hsame, hsame]
    exact hi.kept c hc

theorem Inv.construct (hi : Inv w) (hfree : w.handles h = none) (hk : kind.owns) (p : Option Obj) (d : Bool) :
    Inv { (w.put h (some { kind, cb := some w.next })).set w.next { ptr := p, destroy := d, strongs := 1, managed := d } with
      next := w.next + 1 } where
  fault := hi.fault
  bounded := by
    intro h' c hc
    by_cases hh : h' = h
    · subst hh
      obtain rfl : w.next = c := by simpa [World.cb, World.put, World.set] using hc
      exact Nat.lt_succ_self _
    · exact Nat.lt_succ_of_lt (hi.bounded h' c (by simpa [World.cb, World.put, World.set, hh] using hc))
  kept := by
    intro c hc
    have hlt : c < w.next + 1 := hc
    have hput (r : Role) := count_put w h (some { kind, cb := some w.next }) r c
    simp only [hfree, shares, Handle.role, hk, if_true, Bool.false_eq_true, if_false, Nat.add_zero] at hput
    change Kept _ ((w.put h _).count .owning c) ((w.put h _).count .observing c) ((w.put h _).count .leaving c)
    rw [hput, hput, hput]
    by_cases hcn : c = w.next
    · subst hcn
      have hnone (r : Role) : w.count r w.next = 0 :=
        count_eq_zero fun h' hh' => absurd (hi.bounded h' _ hh') (Nat.lt_irrefl _)
      simpa [hnone] using Kept.fresh p d
    · have hblock := hi.kept c (by omega)
      simpa [World.set, World.put, Function.update_of_ne hcn, Ne.symm hcn] using hblock

theorem Inv.releaseWeak (hi : Inv w) (hh : w.handles h = some hd) (hb : hd.cb = some b) (hk : hd.kind.owns = false)
    (hl : hd.leaving = false) (hlast : (w.blocks b).weaks = 1 → w.count .leaving b = 0) :
    Inv (w.releaseWeak h hd.kind b) := by
  have hkept := hi.kept b (hi.bounded h b (cb_of hh hb))
  rw [releaseWeak_eq h hd.kind (hi.freed_eq hh hb)]
  refine hi.letGo hh hb fun o v l ho hv hleaving => ?_
  simp only [Handle.role_observing hk hl, reduceCtorEq, if_true, if_false, Nat.add_zero] at ho hv hleaving
  subst ho hleaving
  rw [← hv] at hkept
  refine hkept.loseObserver fun hzero => hlast ?_
  rw [← UInt32.toNat_inj, hkept.weaks, hzero]
  rfl

/-- The block behind the callback: without owners, and without the one that was leaving. -/
theorem Inv.endReset (hi : Inv w) (kind : Kind) (hh : w.handles h = some hd) (hb : hd.cb = some b) (hl : hd.leaving = true) :
    Inv (w.endReset h kind) := by
  have hcb : w.cb h = some b := cb_of hh hb
  have hkept := hi.kept b (hi.bounded h b hcb)
  have hrole := Handle.role_eq_leaving.mpr hl
  have hpos := hrole ▸ count_pos hh hb
  have hnone : w.count .owning b = 0 := by
    by_contra howned
    exact absurd (hkept.owned (Nat.pos_of_ne_zero howned)).1 (Nat.ne_of_gt hpos)
  rw [endReset_eq hcb (hi.freed_eq hh hb)]
  refine hi.letGo hh hb fun o v l ho hv hleaving => ?_
  simp only [hrole, reduceCtorEq, if_true, if_false, Nat.add_zero, hnone] at ho hv hleaving
  subst ho hv
  rw [hnone, ← hleaving] at hkept
  exact hkept.endReset

omit [DecidableEq H] in
theorem Inv.withFrames (hi : Inv w) (frames : List (Frame H)) : Inv { w with frames } := ⟨hi.fault, hi.bounded, hi.kept⟩

theorem Inv.loseOwner (hi : Inv w) (hh : w.handles h = some hd) (hb : hd.cb = some b) (hk : hd.kind.owns = true)
    (hl : hd.leaving = false) (hmore : (w.blocks b).strongs ≠ 1) :
    Inv ((w.put h (some { kind := hd.kind })).set b { w.blocks b with strongs := (w.blocks b).strongs - 1 }) := by
  have hkept := hi.kept b (hi.bounded h b (cb_of hh hb))
  refine hi.letGo hh hb fun o v l ho hv hleaving => ?_
  simp only [Handle.role_owning hk hl, reduceCtorEq, if_true, if_false, Nat.add_zero] at ho hv hleaving
  subst hv hleaving
  rw [← ho] at hkept
  refine hkept.loseOwner (Nat.pos_of_ne_zero fun hzero => hmore ?_)
  rw [← UInt32.toNat_inj, hkept.strongs, hzero]
  rfl

theorem Inv.lastOwner (hi : Inv w) (hh : w.handles h = some hd) (hb : hd.cb = some b) (hk : hd.kind.owns = true)
    (hl : hd.leaving = false) (hone : (w.blocks b).strongs = 1) :
    Inv ((w.put h (some { kind := hd.kind, cb := some b, leaving := true })).set b
      { w.blocks b with
          strongs := (w.blocks b).strongs - 1
          destroyed := if (w.blocks b).destroy then (w.blocks b).destroyed + 1 else (w.blocks b).destroyed }) := by
  have hcb : w.cb h = some b := cb_of hh hb
  have hkept := hi.kept b (hi.bounded h b hcb)
  have howning : w.count .owning b = 1 := by
    rw [← hkept.strongs, hone]
    rfl
  refine hi.change (hi.bounded h b hcb) (fun c hc => ?_) (fun c hc => (Option.some.inj hc).symm) fun o v l h₁ h₂ h₃ => ?_
  · exact Option.some.inj (hc.symm.trans hcb)
  · have hleaves : ({ kind := hd.kind, cb := some b, leaving := true } : Handle).role = .leaving := rfl
    simp only [hh, shares_some hb, shares_some, Handle.role_owning hk hl, hleaves, reduceCtorEq, if_true, if_false,
      Nat.add_zero] at h₁ h₂ h₃
    obtain rfl : o = 0 := by omega
    subst h₂ h₃
    rw [howning] at hkept
    exact hkept.lastOwner

structure Dropped (w w₁ : World H Obj) (h : H) (hd : Handle) : Prop where
  inv : Inv w₁
  handles : w₁.handles = Function.update w.handles h (some { kind := hd.kind })
  frames : w₁.frames = w.frames
  room : ∀ c, hd.cb = some c ∨ w.Room hd.kind c → w₁.Room hd.kind c
  quiet : ¬ w.CallsBack h

structure Called (w w₁ : World H Obj) (h : H) (hd : Handle) (after : After H) : Prop where
  inv : Inv w₁
  owns : hd.kind.owns = true
  handles : ∃ b, w₁.handles = Function.update w.handles h (some { kind := hd.kind, cb := some b, leaving := true })
  frames : w₁.frames = { handle := h, kind := hd.kind, after } :: w.frames

omit [DecidableEq H] [Fintype H] in
/-- A count that went down at one block has room there, and elsewhere what it had. -/
theorem room_of_less {w₁ : World H Obj} (hb : hd.cb = some b) (hpos : (w.blocks b).count hd.kind ≠ 0)
    (hless : (w₁.blocks b).count hd.kind = (w.blocks b).count hd.kind - 1) (hsame : ∀ c, c ≠ b → w₁.blocks c = w.blocks c)
    (c : Nat) (hc : hd.cb = some c ∨ w.Room hd.kind c) : w₁.Room hd.kind c := by
  by_cases hcb : c = b
  · subst hcb
    have hlt := UInt32.toNat_lt ((w.blocks c).count hd.kind)
    have hne : ((w.blocks c).count hd.kind).toNat ≠ 0 := fun hzero => hpos (UInt32.toNat_inj.mp hzero)
    have hle : (1 : UInt32) ≤ (w.blocks c).count hd.kind :=
      UInt32.le_iff_toNat_le.mpr (by simp only [UInt32.toNat_one]; omega)
    rw [World.Room, hless, UInt32.toNat_sub_of_le _ _ hle, UInt32.toNat_one]
    omega
  · rw [World.Room, hsame c hcb]
    exact hc.resolve_left fun hc => hcb (Option.some.inj (hc.symm.trans hb))

omit [DecidableEq H] [Fintype H] in
theorem callsBack_iff (hh : w.handles h = some hd) (hb : hd.cb = some b) (hk : hd.kind.owns = true) :
    w.CallsBack h ↔ (w.blocks b).strongs = 1 ∧ (w.blocks b).destroy = true := by
  constructor
  · rintro ⟨hd', hh', -, b', hb', hlast⟩
    obtain rfl := Option.some.inj (hh.symm.trans hh')
    obtain rfl := Option.some.inj (hb.symm.trans hb')
    exact hlast
  · exact fun hlast => ⟨hd, hh, hk, b, hb, hlast⟩

/-- An owner goes: with a callback of its block, which begins, or without. -/
theorem reset_cases (hi : Inv w) (hh : w.handles h = some hd) (hb : hd.cb = some b) (hk : hd.kind.owns = true)
    (hl : hd.leaving = false) (after : After H) :
    (∃ w₁, Dropped w w₁ h hd ∧ w.reset h hd.kind b after = w₁.finish h hd.kind after) ∨
    Called w (w.reset h hd.kind b after) h hd after ∧ w.CallsBack h := by
  have hnot := hi.freed_eq hh hb
  have hcount : (w.blocks b).count hd.kind = (w.blocks b).strongs := if_pos hk
  have hpos := hi.count_ne_zero hh hb hl
  by_cases hone : (w.blocks b).strongs = 1
  · have hlast := hi.lastOwner hh hb hk hl hone
    rw [reset_last hnot hone]
    by_cases hdestroy : (w.blocks b).destroy = true
    · rw [if_pos hdestroy] at hlast ⊢
      exact .inr ⟨⟨hlast.withFrames _, hk, ⟨b, rfl⟩, rfl⟩, (callsBack_iff hh hb hk).mpr ⟨hone, hdestroy⟩⟩
    · rw [if_neg hdestroy] at hlast ⊢
      have hleaving : ((w.put h (some { kind := hd.kind, cb := some b, leaving := true })).set b
          { w.blocks b with strongs := (w.blocks b).strongs - 1 }).handles h =
          some { kind := hd.kind, cb := some b, leaving := true } := Function.update_self ..
      have hleft := hlast.endReset hd.kind hleaving rfl rfl
      have heq := endReset_leaving w h hd.kind b { w.blocks b with strongs := (w.blocks b).strongs - 1 } hnot
      rw [heq] at hleft ⊢
      refine .inl ⟨_, ⟨hleft, rfl, rfl, room_of_less hb hpos ?_ ?_, ?_⟩, rfl⟩
      · rw [blocks_set_self, hcount]
        exact if_pos hk
      · exact fun c hc => Function.update_of_ne hc _ _
      · exact fun hcalls => hdestroy ((callsBack_iff hh hb hk).mp hcalls).2
  · refine .inl ⟨_, ⟨hi.loseOwner hh hb hk hl hone, rfl, rfl, room_of_less hb hpos ?_ ?_, ?_⟩,
      reset_more hnot hone after⟩
    · rw [blocks_set_self, hcount]
      exact if_pos hk
    · exact fun c hc => Function.update_of_ne hc _ _
    · exact fun hcalls => hone ((callsBack_iff hh hb hk).mp hcalls).1

theorem drop_cases (hi : Inv w) (hh : w.handles h = some hd) (hl : hd.leaving = false)
    (hlast : hd.kind.owns = false → ∀ b, hd.cb = some b → (w.blocks b).weaks = 1 → w.count .leaving b = 0)
    (after : After H) :
    (∃ w₁, Dropped w w₁ h hd ∧ w.drop h hd after = w₁.finish h hd.kind after) ∨
    Called w (w.drop h hd after) h hd after ∧ w.CallsBack h := by
  cases hb : hd.cb with
  | none =>
    have hsame : w.handles = Function.update w.handles h (some { kind := hd.kind }) := by
      obtain ⟨kind, cb, leaving⟩ := hd
      simp only at hb hl
      subst hb hl
      exact (Function.update_eq_self_iff.mpr hh.symm).symm
    refine .inl ⟨w, ⟨hi, hsame, rfl, fun c hc => hc.resolve_left (by rw [hb]; nofun), ?_⟩, by rw [World.drop, hb]⟩
    rintro ⟨hd', hh', -, b, hb', -⟩
    obtain rfl := Option.some.inj (hh.symm.trans hh')
    rw [hb] at hb'
    cases hb'
  | some b =>
    cases hk : hd.kind.owns with
    | true =>
      have hdrop : w.drop h hd after = w.reset h hd.kind b after := by simp only [World.drop, hb, hk, if_true]
      rw [hdrop]
      exact reset_cases hi hh hb hk hl after
    | false =>
      have hdrop : w.drop h hd after = (w.releaseWeak h hd.kind b).finish h hd.kind after := by
        simp only [World.drop, hb, hk, Bool.false_eq_true, if_false]
      have hleft := hi.releaseWeak hh hb hk hl (hlast hk b hb)
      have hcount : (w.blocks b).count hd.kind = (w.blocks b).weaks := if_neg (by simp [hk])
      have hpos := hi.count_ne_zero hh hb hl
      have heq := releaseWeak_eq h hd.kind (hi.freed_eq hh hb)
      rw [heq] at hleft hdrop
      refine .inl ⟨_, ⟨hleft, rfl, rfl, room_of_less hb hpos ?_ ?_, ?_⟩, hdrop⟩
      · rw [blocks_set_self, hcount]
        exact if_neg (by simp [hk])
      · exact fun c hc => Function.update_of_ne hc _ _
      · rintro ⟨hd', hh', hk', -⟩
        obtain rfl := Option.some.inj (hh.symm.trans hh')
        rw [hk] at hk'
        cases hk'

/-- The source that an operation reads behind the reset is there, and can be taken over. -/
def Ready (w : World H Obj) (h : H) (kind : Kind) : After H → Prop
  | .nothing | .dead => True
  | .assigned o => ∃ src, w.handles o = some src ∧ (kind.owns → src.kind.owns ∧ src.leaving = false) ∧
      ∀ b, src.cb = some b → w.Room kind b
  | .moved o => ∃ src, w.handles o = some src ∧ src.leaving = false ∧ o ≠ h

theorem Inv.finish (hi : Inv w) (hh : w.handles h = some { kind }) {after : After H} (hready : Ready w h kind after) :
    Inv (w.finish h kind after) := by
  have hcb : w.cb h = none := by rw [World.cb, hh]; rfl
  cases after with
  | nothing => exact hi
  | dead => exact hi.put hcb rfl
  | assigned o =>
    obtain ⟨src, ho, howns, hroom⟩ := hready
    simp only [World.finish, ho]
    cases hb : src.cb with
    | none => exact hi.put hcb rfl
    | some b =>
      refine hi.attach hcb ho hb (fun hk => ?_) (hroom b hb)
      obtain ⟨hsrc, hl⟩ := howns hk
      have hpos := count_pos ho hb
      rwa [Handle.role_owning hsrc hl] at hpos
  | moved o =>
    obtain ⟨src, ho, hl, hne⟩ := hready
    simp only [World.finish, ho]
    exact hi.transfer hcb (Ne.symm hne) ho hl

end Invariant

end Abix.DLL.Pointers
