import Abix.RCU.Watermark

/-! Which nodes a sweep takes. A collection of a class sees the retired list as it is when the
watermark moves, so once a sweep up to an epoch has begun, the nodes that were published at or
below it are as good as gone. -/
namespace Abix.RCU
open Abix.Concurrency
variable {Tid Obj Fn : Type} {t u : Tid} {a : Action Obj Fn} {sh sh' : Shared Tid Obj Fn}
  {l l' : Local Tid Obj Fn} {c : Config Tid (Shared Tid Obj Fn) (Local Tid Obj Fn)} {n : RetiredNode Obj Fn}
  {P : RetiredNode Obj Fn → Prop} {k : ReclaimClass} {old : Nat}

/-- A sweep of the class is under way that has every node of the kind ahead. -/
def Sweeping (c : Config Tid (Shared Tid Obj Fn) (Local Tid Obj Fn)) (P : RetiredNode Obj Fn → Prop)
    (k : ReclaimClass) : Prop :=
  ∃ u safe kept rest fin, (c.locals u).pc = .sweep safe k kept rest fin ∧ (∀ v, ∀ n ∈ (c.locals v).batch, ¬ P n) ∧
    (∀ n ∈ kept, ¬ P n) ∧ ∀ n ∈ rest, P n → n.cls = k ∧ n.epoch ≤ safe

def Taken (c : Config Tid (Shared Tid Obj Fn) (Local Tid Obj Fn)) (P : RetiredNode Obj Fn → Prop)
    (k : ReclaimClass) : Prop :=
  (∀ n, Waiting c n → ¬ P n) ∨ Sweeping c P k

/-- What waits of the kind is in the retired list at or below the epoch, and has been taken if
the watermark of the class is there. -/
structure Covered (c : Config Tid (Shared Tid Obj Fn) (Local Tid Obj Fn)) (P : RetiredNode Obj Fn → Prop)
    (k : ReclaimClass) (old : Nat) : Prop where
  published : ∀ v, ∀ n ∈ (c.locals v).batch, ¬ P n
  below : ∀ n ∈ c.shared.retired, P n → n.cls = k ∧ n.epoch ≤ old
  ahead : c.shared.epoch.completedOf k < old ∨ Taken c P k

theorem Covered.taken (h : Covered c P k old) (hle : old ≤ c.shared.epoch.completedOf k) : Taken c P k :=
  h.ahead.resolve_left (Nat.not_lt.mpr hle)

/-- Whoever holds the lock and is not in such a sweep finds nothing of the kind left. -/
theorem Taken.gone (h : Taken c P k) (hp : ∀ u, Placed c.shared u (c.locals u).pc) (hlock : c.shared.lock = some t)
    (hpc : ∀ safe kept rest fin, (c.locals t).pc ≠ .sweep safe k kept rest fin) : ∀ n, Waiting c n → ¬ P n := by
  refine h.resolve_right fun ⟨u, safe, kept, rest, fin, hu, _⟩ => ?_
  have hplaced := hp u
  rw [hu] at hplaced
  obtain rfl := Option.some.inj (hlock.symm.trans hplaced.1)
  exact hpc _ _ _ _ hu

variable [DecidableEq Tid]

/-- What a step does to the watermark of one class: nothing, unless it begins a sweep of it. -/
theorem Moves.marks (h : Moves t sh a l sh' l') (k : ReclaimClass) :
    sh'.epoch.completedOf k = sh.epoch.completedOf k ∨ ∃ safe fin, sh'.epoch.completedOf k = safe ∧
      l' = ⟨.sweep safe k [] sh.retired fin, l.batch⟩ ∧ sh'.retired = sh.retired := by
  cases h with
  | @completes _ safe k' =>
    by_cases hk : k' = k
    · subst hk
      exact .inr ⟨safe, _, by rw [Epoch.completedOf_complete, if_pos rfl], rfl, rfl⟩
    · exact .inl (by rw [Epoch.completedOf_complete, if_neg (Ne.symm hk)])
  | begins | beginsUntil | advances | finishes => exact .inl (by cases k <;> rfl)
  | _ => exact .inl rfl

/-- A step that queues no node of the kind brings none into a batch. -/
theorem Moves.batches_without (h : Moves t c.shared a (c.locals t) sh' l')
    (hq : ∀ n ∈ queueing a (c.locals t).pc, ¬ P n) (hb : ∀ v, ∀ n ∈ (c.locals v).batch, ¬ P n) (v : Tid) :
    ∀ n ∈ (Function.update c.locals t l' v).batch, ¬ P n := by
  intro n hn
  rcases h.batches hn with hn | ⟨hpc, ha⟩
  · exact hb v n hn
  · exact hq n (by rw [hpc, ha, queueing, Option.mem_some_iff])

private theorem sweeping_next (h : Sweeping c P k) (hm : Moves t c.shared a (c.locals t) sh' l')
    (hp : Placed c.shared t (c.locals t).pc) (hq : ∀ n ∈ queueing a (c.locals t).pc, ¬ P n) :
    Taken ⟨sh', Function.update c.locals t l'⟩ P k := by
  obtain ⟨u, safe, kept, rest, fin, hu, hb, hkept, hrest⟩ := h
  have hb' := hm.batches_without hq hb
  by_cases hut : u = t
  · subst hut
    have hpc (pc) (hl' : l'.pc = pc) : (Function.update c.locals u l' u).pc = pc := by rw [Function.update_self, hl']
    generalize c.locals u = l at hm hu hp
    cases hm with
    | swept =>
      cases hu
      refine .inl fun n hn => ?_
      rcases hn with hn | ⟨v, hn⟩
      · exact hkept n (by simpa [hp.2] using hn)
      · exact hb' v n hn
    | reclaims =>
      cases hu
      exact .inr ⟨u, _, _, _, _, hpc _ rfl, hb', hkept, fun n hn => hrest n (List.mem_cons_of_mem _ hn)⟩
    | keeps hn =>
      cases hu
      refine .inr ⟨u, _, _, _, _, hpc _ rfl, hb', fun m hm => ?_, fun n hn => hrest n (List.mem_cons_of_mem _ hn)⟩
      rcases List.mem_append.mp hm with hm | hm
      · exact hkept m hm
      · obtain rfl := List.mem_singleton.mp hm
        exact fun hP => hn (hrest m List.mem_cons_self hP)
    | _ => cases hu
  · exact .inr ⟨u, safe, kept, rest, fin, by simp [Function.update_of_ne hut, hu], hb', hkept, hrest⟩

/-- Nodes that a sweep takes stay taken, unless another one of the kind is queued. -/
theorem taken_next (h : Taken c P k) (hm : Moves t c.shared a (c.locals t) sh' l')
    (hp : Placed c.shared t (c.locals t).pc) (hq : ∀ n ∈ queueing a (c.locals t).pc, ¬ P n) :
    Taken ⟨sh', Function.update c.locals t l'⟩ P k := by
  rcases h with hgone | hsweep
  · refine .inl fun n hn => ?_
    rcases hm.waiting hp hn with hn | ⟨hpc, ha⟩
    · exact hgone n hn
    · exact hq n (by rw [hpc, ha, queueing, Option.mem_some_iff])
  · exact sweeping_next hsweep hm hp hq

/-- A sweep that begins takes the nodes of its class that were published at or below its epoch. -/
theorem sweeping_begins {safe : Nat} {fin : Finish} (hl' : l' = ⟨.sweep safe k [] c.shared.retired fin, (c.locals t).batch⟩)
    (hb : ∀ v, ∀ n ∈ (c.locals v).batch, ¬ P n) (hr : ∀ n ∈ c.shared.retired, P n → n.cls = k ∧ n.epoch ≤ safe) :
    Taken ⟨sh', Function.update c.locals t l'⟩ P k := by
  refine .inr ⟨t, safe, [], c.shared.retired, fin, by simp [hl'], fun v n hn => ?_, by simp, hr⟩
  by_cases hv : v = t
  · simp only [hv, Function.update_self, hl'] at hn
    exact hb t n hn
  · simp only [Function.update_of_ne hv] at hn
    exact hb v n hn

theorem covered_next (h : Covered c P k old) (hm : Moves t c.shared a (c.locals t) sh' l')
    (hp : Placed c.shared t (c.locals t).pc) (hq : ∀ n ∈ queueing a (c.locals t).pc, ¬ P n) :
    Covered ⟨sh', Function.update c.locals t l'⟩ P k old := by
  refine ⟨hm.batches_without hq h.published, fun n hn hP => ?_, ?_⟩
  · exact h.below n ((hm.retired hp hn).resolve_right fun hb => h.published t n hb.1 hP) hP
  · rcases h.ahead with hlt | htaken
    · rcases hm.marks k with he | ⟨safe, fin, he, hl', -⟩
      · exact .inl (he ▸ hlt)
      · by_cases hsafe : safe < old
        · exact .inl (he ▸ hsafe)
        · refine .inr (sweeping_begins hl' h.published fun n hn hP => ?_)
          obtain ⟨hk, hle⟩ := h.below n hn hP
          exact ⟨hk, hle.trans (Nat.not_lt.mp hsafe)⟩
    · exact .inr (taken_next htaken hm hp hq)

end Abix.RCU
