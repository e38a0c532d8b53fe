import Abix.RCU.Stats

/-! What the diagnostics say. Attempts and contentions are counted under the writer lock and differ by
the advancements there have been; the longest wait is raised by an exchange that never loses a larger one. -/
namespace Abix.RCU.Stats
open Abix.Concurrency
variable {Tid Obj Fn : Type} [DecidableEq Tid] {t u : Tid} {a : StatAction Obj Fn} {b : Action Obj Fn}
  {m m' : Measured Tid Obj Fn} {w w' wu : Watched Tid Obj Fn} {d d' : Shared Tid Obj Fn} {l l' : Local Tid Obj Fn}
  {counters : Counter → Nat} {n : Note} {rest notes : List Note}
  {c c' : Config Tid (Measured Tid Obj Fn) (Watched Tid Obj Fn)}

section Notes

/-- Increments outside the lock are of the other counters, and an exchange is of a longer wait. -/
def Note.Proper : Note → Prop
  | .increments k => k = .advanceRetries ∨ k = .advanceTimeouts ∨ k = .gracePeriodTimeouts
  | .exchanges ns observed => observed < ns
  | _ => True

structure Formed (notes : List Note) : Prop where
  proper : ∀ n ∈ notes, n.Proper
  resets : ∀ k, .clears k ∈ notes → notes <:+ resetNotes
  reads : ∀ k, .loads k ∈ notes → notes <:+ statsNotes
  walks : .walks ∈ notes → notes <:+ statsNotes
  unlocks : .unlocks ∈ notes → notes <:+ resetNotes ∨ notes <:+ statsNotes

private theorem formed_of_plain
    (h : ∀ n ∈ notes, n.Proper ∧ n ≠ .walks ∧ n ≠ .unlocks ∧ (∀ k, n ≠ .clears k) ∧ ∀ k, n ≠ .loads k) :
    Formed notes where
  proper n hn := (h n hn).1
  resets k hk := absurd rfl ((h _ hk).2.2.2.1 k)
  reads k hk := absurd rfl ((h _ hk).2.2.2.2 k)
  walks hw := absurd rfl (h _ hw).2.1
  unlocks hu := absurd rfl (h _ hu).2.2.1

omit [DecidableEq Tid] in
/-- What is noted between two accesses is plain. -/
theorem due_plain {waiting : Bool} {pc pc' : Pc Tid Obj Fn} (h : n ∈ due waiting pc pc') :
    n.Proper ∧ n ≠ .walks ∧ n ≠ .unlocks ∧ (∀ k, n ≠ .clears k) ∧ ∀ k, n ≠ .loads k := by
  revert n
  unfold due
  split
  · simp [Note.Proper]
  · simp [Note.Proper]
  · split <;> simp [Note.Proper]
  · simp [Note.Proper]
  · simp

omit [DecidableEq Tid] in
private theorem formed_due (waiting : Bool) (pc pc' : Pc Tid Obj Fn) : Formed (due waiting pc pc') :=
  formed_of_plain fun _ => due_plain

private theorem formed_statsNotes : Formed statsNotes := by
  constructor <;> simp [statsNotes, Counter.all, Note.Proper]

private theorem formed_resetNotes : Formed resetNotes := by
  constructor <;> simp [resetNotes, Counter.all, Note.Proper]

theorem Formed.tail (h : Formed (n :: rest)) : Formed rest where
  proper m hm := h.proper m (List.mem_cons_of_mem n hm)
  resets k hk := (List.suffix_cons n rest).trans (h.resets k (List.mem_cons_of_mem n hk))
  reads k hk := (List.suffix_cons n rest).trans (h.reads k (List.mem_cons_of_mem n hk))
  walks hw := (List.suffix_cons n rest).trans (h.walks (List.mem_cons_of_mem n hw))
  unlocks hu := (h.unlocks (List.mem_cons_of_mem n hu)).imp (List.suffix_cons n rest).trans
    (List.suffix_cons n rest).trans

/-- Another plain note in the place of a plain one. -/
theorem Formed.replace (h : Formed (n :: rest)) (hn : n ∉ resetNotes ∧ n ∉ statsNotes) {n' : Note} (hn' : n'.Proper)
    (hplain : n' ∉ resetNotes ∧ n' ∉ statsNotes) : Formed (n' :: rest) := by
  have hfree {m : Note} (hm : m ∈ resetNotes ∨ m ∈ statsNotes)
      (hnotes : m ∈ n :: rest → n :: rest <:+ resetNotes ∨ n :: rest <:+ statsNotes)
      (hin : m ∈ n' :: rest) : False := by
    rcases List.mem_cons.mp hin with rfl | hin
    · exact hm.elim hplain.1 hplain.2
    · exact (hnotes (List.mem_cons_of_mem n hin)).elim (fun hs => hn.1 (hs.subset List.mem_cons_self))
        fun hs => hn.2 (hs.subset List.mem_cons_self)
  refine ⟨fun m hm => ?_, fun k hk => ?_, fun k hk => ?_, fun hw => ?_, fun hu => ?_⟩
  · rcases List.mem_cons.mp hm with rfl | hm
    · exact hn'
    · exact h.proper m (List.mem_cons_of_mem n hm)
  · refine (hfree (.inl ?_) (fun hin => .inl (h.resets k hin)) hk).elim
    cases k <;> decide
  · refine (hfree (.inr ?_) (fun hin => .inr (h.reads k hin)) hk).elim
    cases k <;> decide
  · exact (hfree (.inr (by decide)) (fun hin => .inr (h.walks hin)) hw).elim
  · exact (hfree (.inl (by decide)) h.unlocks hu).elim

theorem Note.Compares.plain {ns : Nat} (h : n.Compares ns) : n ∉ resetNotes ∧ n ∉ statsNotes := by
  cases n with
  | observes | exchanges => simp [resetNotes, statsNotes, Counter.all]
  | _ => exact h.elim

theorem Note.Compares.not_clears {ns : Nat} (h : n.Compares ns) (k : Counter) : n ≠ .clears k := by
  rintro rfl
  exact h

theorem Note.Compares.not_loads {ns : Nat} (h : n.Compares ns) (k : Counter) : n ≠ .loads k := by
  rintro rfl
  exact h

theorem formed_own (hd : Does t m a w m' w') (h : Formed w.notes) : Formed w'.notes := by
  cases hd with
  | accesses => exact formed_due _ _ _
  | reads => exact formed_statsNotes
  | resets => exact formed_resetNotes
  | measures => exact h.replace (by decide) trivial (by simp [resetNotes, statsNotes, Counter.all])
  | observes hn hlt => exact h.replace hn.plain hlt (by simp [resetNotes, statsNotes, Counter.all])
  | _ => exact h.tail

private theorem formed_of_reachable
    {ok : Config Tid (Measured Tid Obj Fn) (Watched Tid Obj Fn) → Tid → StatAction Obj Fn → Prop}
    (h : (measured Tid Obj Fn).Reachable ok (start Tid Obj Fn) c) (t : Tid) : Formed (c.locals t).notes := by
  have hstable : (measured Tid Obj Fn).Stable ok (fun _ => True) (fun _ _ w => Formed w.notes) := by
    constructor
    · exact fun _ _ hj hs => ⟨trivial, formed_own (does_of_step hs) (hj _)⟩
    · exact fun _ _ hj _ u _ => hj u
  exact (hstable.reachable trivial (fun _ => by constructor <;> simp [start]) h).2 t

end Notes

section Longest

omit [DecidableEq Tid] in
private theorem tally_apply (k : Counter) (pc : Pc Tid Obj Fn) (hk : k ≠ .advanceAttempts) (hk' : k ≠ .advanceContentions) :
    tally d counters pc k = counters k := by
  unfold tally
  split
  · dsimp only
    split <;> simp [increment, Function.update_of_ne hk, Function.update_of_ne hk']
  · split
    · simp [increment, Function.update_of_ne hk, Function.update_of_ne hk']
    · split <;> simp [increment, Function.update_of_ne hk]
  · rfl

def longest (waits : List Nat) : Nat := waits.foldr max 0

/-- Whatever the interleaving of the waits and of `reset_stats`, `advance_max_wait_ns` is the longest of
the waits that have been noted since it was last cleared. -/
theorem max_wait_is_longest
    {ok : Config Tid (Measured Tid Obj Fn) (Watched Tid Obj Fn) → Tid → StatAction Obj Fn → Prop}
    (h : (measured Tid Obj Fn).Reachable ok (start Tid Obj Fn) c) :
    c.shared.counters .advanceMaxWaitNs = longest c.shared.noted := by
  refine (h.assuming fun _ h => formed_of_reachable h).invariant
    (P := fun c => c.shared.counters .advanceMaxWaitNs = longest c.shared.noted) rfl ?_
  rintro c t a c' hc ⟨hformed, -⟩ hn
  obtain ⟨m, w, hs, rfl⟩ := Program.next_eq_some_iff.mp hn
  have hformed := hformed t
  have hd := does_of_step hs
  generalize c.locals t = w₀ at hd hformed
  cases hd with
  | accesses => exact (tally_apply .advanceMaxWaitNs _ (by decide) (by decide)).trans hc
  | increments =>
    rename_i k _ _ _ _
    have hk : Counter.advanceMaxWaitNs ≠ k := by
      rintro rfl
      exact absurd (hformed.proper _ List.mem_cons_self) (by simp [Note.Proper])
    exact (Function.update_of_ne hk ..).trans hc
  | keeps _ hle => exact hc.trans (max_eq_right (hle.trans hc.le)).symm
  | raises =>
    have hlt := hformed.proper _ List.mem_cons_self
    dsimp only
    rw [Function.update_self]
    exact (max_eq_left (hc.symm.le.trans hlt.le)).symm
  | clears =>
    rename_i k _ _ _ _
    dsimp only
    by_cases hk : k = .advanceMaxWaitNs
    · subst hk
      simp [longest]
    · rw [if_neg hk, Function.update_of_ne (Ne.symm hk)]
      exact hc
  | _ => exact hc

/-- A wait of four is noted while one of seven is. -/
theorem max_wait_is_longest_racing : ∃ c : Config (Fin 3) (Measured (Fin 3) Unit Unit) (Watched (Fin 3) Unit Unit),
    c.shared.noted = [4, 7] ∧ c.shared.counters .advanceMaxWaitNs = longest [4, 7] := by
  have hrun : ((measured (Fin 3) Unit Unit).exec Program.anyStep (start (Fin 3) Unit Unit)
      ([(0, .access .synchronizeEager), (0, .access (.run true)), (0, .access (.run true))] ++
        [(1, .access (.synchronizeUntil true)), (1, .access (.run true)), (1, .note 2), (1, .note 2),
          (1, .access (.run true)), (1, .note 9), (1, .note 9), (1, .note 9)] ++
        [(2, .access (.synchronizeUntil true)), (2, .access (.run true)), (2, .note 6), (2, .note 6),
          (2, .access (.run true)), (2, .note 10), (2, .note 10), (2, .note 10), (1, .note 10), (2, .note 10)])).map
      (·.shared.noted) = some [4, 7] := by
    decide
  obtain ⟨c, hc, he⟩ := Option.map_eq_some_iff.mp hrun
  exact ⟨c, he, he ▸ max_wait_is_longest (.of_exec .init hc)⟩

end Longest

section Attempts

structure Balanced (m : Measured Tid Obj Fn) : Prop where
  attempts : m.counters .advanceAttempts + m.base = m.counters .advanceContentions + m.dom.epoch.global
  base : m.base ≤ m.dom.epoch.global

/-- `reset_stats` has cleared the attempts and comes to the contentions. -/
def Midway (notes : List Note) : Prop := notes = resetNotes.tail

omit [DecidableEq Tid] in
theorem Balanced.congr (h : Balanced m) (ha : m'.counters .advanceAttempts = m.counters .advanceAttempts)
    (hc : m'.counters .advanceContentions = m.counters .advanceContentions) (hb : m'.base = m.base)
    (hg : m'.dom.epoch.global = m.dom.epoch.global) : Balanced m' :=
  ⟨by rw [ha, hc, hb, hg]; exact h.attempts, by rw [hb, hg]; exact h.base⟩

omit [DecidableEq Tid] in
private theorem Balanced.contends (h : Balanced m) : Balanced { m with
    counters := increment .advanceContentions (increment .advanceAttempts m.counters) } := by
  refine ⟨?_, h.base⟩
  have hattempts := h.attempts
  simp [increment]
  omega

omit [DecidableEq Tid] in
theorem Balanced.advances (h : Balanced m) (hg : d'.epoch.global = m.dom.epoch.global + 1) : Balanced { m with
    dom := d', counters := increment .advanceAttempts m.counters } := by
  have hattempts := h.attempts
  refine ⟨?_, hg ▸ Nat.le_succ_of_le h.base⟩
  simp [increment, hg]
  omega

theorem Balanced.accesses (h : Balanced m) (hm : Moves t m.dom b l d' l') :
    Balanced { m with dom := d', counters := tally m.dom m.counters l.pc } := by
  cases hm with
  | contended _ hs | contendedUntil _ hs =>
    simp only [tally, if_pos hs]
    exact h.contends.congr rfl rfl rfl rfl
  | deferred _ hs hcount =>
    simp only [tally, if_neg (not_not.mpr hs), hcount, and_self, if_true]
    exact h.congr rfl rfl rfl rfl
  | @begins _ eager _ _ _ hs hk =>
    have hdue : ¬ (eager = false ∧ m.dom.syncCount + 1 < epochBatch) := by
      rintro ⟨rfl, hlt⟩
      exact Nat.not_le.mpr hlt hk.2
    simp only [tally, if_neg (not_not.mpr hs), if_neg hdue]
    exact h.advances rfl
  | beginsUntil _ hs =>
    simp only [tally, if_neg (not_not.mpr hs)]
    exact h.advances rfl
  | completes => exact h.congr rfl rfl rfl (by simp)
  | _ => exact h.congr rfl rfl rfl rfl

/-- A thread that holds the lock, and what the counters are while it does. -/
structure Holding (m : Measured Tid Obj Fn) (t : Tid) (w : Watched Tid Obj Fn) : Prop where
  locked : w.thread.pc.Locked → m.dom.lock = some t
  outside : .unlocks ∈ w.notes → ¬ w.thread.pc.Locked
  unlocks : .unlocks ∈ w.notes → m.dom.lock = some t
  midway : m.dom.lock = some t → Midway w.notes → m.counters .advanceAttempts = 0
  balanced : m.dom.lock = some t → ¬ Midway w.notes → Balanced m

/-- Nothing is counted while another thread holds the lock. -/
theorem tally_of_locked (hm : Moves t d b l d' l') (hlock : d.lock ≠ none) : tally d counters l.pc = counters := by
  cases hm with
  | contended hl | deferred hl | begins hl | beginsUntil hl | contendedUntil hl => exact absurd hl hlock
  | _ => rfl

/-- The last thing that `reset_stats` does is to unlock. -/
theorem Formed.unlocks_of_clears {k : Counter} (h : Formed notes) (hk : .clears k ∈ notes) : .unlocks ∈ notes := by
  have hs := h.resets k hk
  have hlast : [Note.unlocks] <:+ resetNotes := ⟨Counter.all.map .clears, rfl⟩
  have hpos : 0 < notes.length := List.length_pos_of_mem hk
  exact (List.suffix_of_suffix_length_le hlast hs hpos).subset List.mem_cons_self

/-- A note that is no clearing of them leaves the attempts and the contentions alone. -/
theorem Formed.untouched {k : Counter} (h : Formed (.increments k :: rest)) :
    increment k counters .advanceAttempts = counters .advanceAttempts ∧
      increment k counters .advanceContentions = counters .advanceContentions := by
  rcases h.proper _ List.mem_cons_self with rfl | rfl | rfl <;> exact ⟨rfl, rfl⟩

structure Still (m m' : Measured Tid Obj Fn) : Prop where
  lock : m'.dom.lock = m.dom.lock
  attempts : m'.counters .advanceAttempts = m.counters .advanceAttempts
  contentions : m'.counters .advanceContentions = m.counters .advanceContentions
  base : m'.base = m.base
  global : m'.dom.epoch.global = m.dom.epoch.global

/-- Nobody releases the lock of another thread or counts under it. -/
theorem still_of_held (hd : Does t m a w m' w') (hf : Formed w.notes) (ht : Holding m t w) (hne : u ≠ t)
    (hlock : m.dom.lock = some u) : Still m m' := by
  cases hd with
  | accesses hm =>
    obtain ⟨hl, he, -, -⟩ := hm.excluded ht.locked hlock hne
    have hcounters : _ = m.counters := tally_of_locked hm (by simp [hlock])
    exact ⟨hl, congrFun hcounters _, congrFun hcounters _, rfl, congrArg Epoch.global he⟩
  | reads hfree | resets hfree => exact nomatch hfree.symm.trans hlock
  | increments => exact ⟨rfl, hf.untouched.1, hf.untouched.2, rfl, rfl⟩
  | clears =>
    have hmine := ht.unlocks (hf.unlocks_of_clears List.mem_cons_self)
    exact absurd (Option.some.inj (hlock.symm.trans hmine)) hne
  | unlocks => exact absurd (Option.some.inj (hlock.symm.trans (ht.unlocks List.mem_cons_self))) hne
  | _ => exact ⟨rfl, rfl, rfl, rfl, rfl⟩

theorem Does.lock_ne (hd : Does t m a w m' w') (hne : u ≠ t) (hlock : m'.dom.lock = some u) : m.dom.lock = some u := by
  cases hd with
  | accesses hm => exact hm.lock_ne hlock hne
  | reads | resets => exact absurd (Option.some.inj hlock).symm hne
  | unlocks => cases hlock
  | _ => exact hlock

theorem holding_others (hd : Does t m a w m' w') (hf : Formed w.notes) (ht : Holding m t w) (hne : u ≠ t)
    (hu : Holding m u wu) : Holding m' u wu := by
  have hstill := still_of_held hd hf ht hne
  refine ⟨fun hl => ?_, hu.outside, fun hl => ?_, fun hl hmid => ?_, fun hl hmid => ?_⟩
  · exact (hstill (hu.locked hl)).lock.trans (hu.locked hl)
  · exact (hstill (hu.unlocks hl)).lock.trans (hu.unlocks hl)
  · have hl := hd.lock_ne hne hl
    exact (hstill hl).attempts.trans (hu.midway hl hmid)
  · have hl := hd.lock_ne hne hl
    exact (hu.balanced hl hmid).congr (hstill hl).attempts (hstill hl).contentions (hstill hl).base (hstill hl).global

private theorem lock_of_moves (hm : Moves t d b l d' l') (h : l.pc.Locked → d.lock = some t) (hl : l'.pc.Locked) :
    d'.lock = some t := by
  cases hm with
  | called hs => exact absurd hl (first_of_start hs).not_locked
  | registers => exact absurd hl (first_afterThread _).not_locked
  | begins | beginsUntil | collectLock => rfl
  | skips | completes | swept | reclaims | keeps => exact h trivial
  | _ => exact hl.elim

theorem Midway.clears (h : Midway notes) : .clears .advanceContentions ∈ notes := by
  rw [h]
  decide

theorem Midway.of_tail (hf : Formed (n :: rest)) (h : Midway rest) : n = .clears .advanceAttempts := by
  have hs := hf.resets _ (List.mem_cons_of_mem n h.clears)
  obtain rfl := h
  simpa [resetNotes, Counter.all, List.suffix_cons_iff] using hs

theorem not_midway_cons (hn : n ≠ .clears .advanceContentions) : ¬ Midway (n :: rest) := by
  intro h
  exact hn (List.cons.inj h).1

omit [DecidableEq Tid] in
/-- A note of the thread that neither clears nor unlocks. -/
theorem Holding.keeps (h : Holding m t w) (hf : Formed w.notes) (hn : w.notes = n :: rest)
    (hplain : (∀ k, n ≠ .clears k)) (hw : w'.thread = w.thread)
    (hrest : w'.notes = rest ∨ ∃ n', w'.notes = n' :: rest ∧ n' ≠ .unlocks ∧ n' ≠ .clears .advanceContentions)
    (hlock : m'.dom.lock = m.dom.lock) (ha : m'.counters .advanceAttempts = m.counters .advanceAttempts)
    (hc : m'.counters .advanceContentions = m.counters .advanceContentions) (hb : m'.base = m.base)
    (hg : m'.dom.epoch.global = m.dom.epoch.global) : Holding m' t w' := by
  have hmem (hu : .unlocks ∈ w'.notes) : .unlocks ∈ w.notes := by
    rw [hn]
    rcases hrest with he | ⟨n', he, hn', -⟩
    · exact List.mem_cons_of_mem n (he ▸ hu)
    · rw [he] at hu
      exact List.mem_cons_of_mem n ((List.mem_cons.mp hu).resolve_left hn'.symm)
  have hmid : ¬ Midway w'.notes := by
    rw [hn] at hf
    rcases hrest with he | ⟨n', he, -, hn'⟩
    · rw [he]
      exact fun h => hplain _ (h.of_tail hf)
    · rw [he]
      exact not_midway_cons hn'
  refine ⟨fun hl => ?_, fun hu => ?_, fun hu => hlock.trans (h.unlocks (hmem hu)), fun _ h => absurd h hmid,
    fun hl _ => ?_⟩
  · exact hlock.trans (h.locked (hw ▸ hl))
  · exact hw ▸ h.outside (hmem hu)
  · refine (h.balanced (hlock.symm.trans hl) ?_).congr ha hc hb hg
    rw [hn]
    exact not_midway_cons (hplain _)

omit [DecidableEq Tid] in
theorem Holding.clears {k : Counter} {s : Option UInt64} {x : Snapshot} (h : Holding m t ⟨l, s, .clears k :: rest, x⟩)
    (hf : Formed (.clears k :: rest)) : Holding { m with
      counters := Function.update m.counters k 0
      base := if k = .advanceContentions then m.dom.epoch.global else m.base
      noted := if k = .advanceMaxWaitNs then [] else m.noted } t ⟨l, s, rest, x⟩ := by
  have hmine := h.unlocks (hf.unlocks_of_clears List.mem_cons_self)
  have hout := h.outside (hf.unlocks_of_clears List.mem_cons_self)
  have hs := hf.resets k List.mem_cons_self
  refine ⟨fun hl => absurd hl hout, fun _ => hout, fun _ => hmine, fun _ hmid => ?_, fun _ hmid => ?_⟩
  · obtain rfl : k = .advanceAttempts := by simpa using hmid.of_tail hf
    simp
  · by_cases hk : k = .advanceContentions
    · subst hk
      have hmidway : Midway (.clears .advanceContentions :: rest) := by
        simpa [Midway, resetNotes, Counter.all, List.suffix_cons_iff] using hs
      have hzero := h.midway hmine hmidway
      constructor <;> simp [hzero]
    · have hka : k ≠ .advanceAttempts := by
        rintro rfl
        refine hmid ?_
        simpa [Midway, resetNotes, Counter.all, List.suffix_cons_iff] using hs
      refine (h.balanced hmine (not_midway_cons (by simpa using hk))).congr ?_ ?_ (if_neg hk) rfl
      · exact Function.update_of_ne (Ne.symm hka) ..
      · exact Function.update_of_ne (Ne.symm hk) ..

/-- The thread that moves keeps the counters in balance. -/
theorem holding_own (hd : Does t m a w m' w') (hf : Formed w.notes) (hfree : m.dom.lock = none → Balanced m)
    (h : Holding m t w) : (m'.dom.lock = none → Balanced m') ∧ Holding m' t w' := by
  cases hd with
  | @accesses l s x b d l' hm =>
    have hbalanced : d.lock = none ∨ d.lock = some t →
        Balanced { m with dom := d, counters := tally m.dom m.counters l.pc } := by
      intro hd
      cases hlock : m.dom.lock with
      | none => exact (hfree hlock).accesses hm
      | some u =>
        by_cases hu : u = t
        · exact (h.balanced (hu ▸ hlock) nofun).accesses hm
        · have hsame := (hm.excluded h.locked hlock hu).1.trans hlock
          rw [hsame] at hd
          exact (hd.elim nofun fun hd => absurd (Option.some.inj hd) hu)
    refine ⟨fun hl => hbalanced (.inl hl), fun hl => lock_of_moves hm h.locked hl, fun hu => ?_, fun hu => ?_,
      fun _ hmid => ?_, fun hl _ => hbalanced (.inr hl)⟩
    · exact absurd rfl (due_plain hu).2.2.1
    · exact absurd rfl (due_plain hu).2.2.1
    · exact absurd rfl ((due_plain hmid.clears).2.2.2.1 _)
  | reads hlock =>
    refine ⟨nofun, fun _ => rfl, fun _ => id, fun _ => rfl, fun _ hmid => ?_,
      fun _ _ => (hfree hlock).congr rfl rfl rfl rfl⟩
    exact absurd hmid (by decide : statsNotes ≠ resetNotes.tail)
  | resets hlock =>
    refine ⟨nofun, fun _ => rfl, fun _ => id, fun _ => rfl, fun _ hmid => ?_,
      fun _ _ => (hfree hlock).congr rfl rfl rfl rfl⟩
    exact absurd hmid (by decide : resetNotes ≠ resetNotes.tail)
  | startsWait | loads | walks =>
    exact ⟨hfree, h.keeps hf rfl nofun rfl (.inl rfl) rfl rfl rfl rfl rfl⟩
  | measures => exact ⟨hfree, h.keeps hf rfl nofun rfl (.inr ⟨_, rfl, nofun, nofun⟩) rfl rfl rfl rfl rfl⟩
  | observes hn => exact ⟨hfree, h.keeps hf rfl hn.not_clears rfl (.inr ⟨_, rfl, nofun, nofun⟩) rfl rfl rfl rfl rfl⟩
  | increments =>
    obtain ⟨ha, hc⟩ : _ = m.counters .advanceAttempts ∧ _ = m.counters .advanceContentions := hf.untouched
    exact ⟨fun hl => (hfree hl).congr ha hc rfl rfl, h.keeps hf rfl nofun rfl (.inl rfl) rfl ha hc rfl rfl⟩
  | keeps hn =>
    exact ⟨fun hl => (hfree hl).congr rfl rfl rfl rfl, h.keeps hf rfl hn.not_clears rfl (.inl rfl) rfl rfl rfl rfl rfl⟩
  | raises =>
    exact ⟨fun hl => (hfree hl).congr rfl rfl rfl rfl, h.keeps hf rfl nofun rfl (.inl rfl) rfl rfl rfl rfl rfl⟩
  | clears =>
    have hmine := h.unlocks (hf.unlocks_of_clears List.mem_cons_self)
    exact ⟨fun hl => (nomatch hmine.symm.trans hl), h.clears hf⟩
  | @unlocks _ l s rest x =>
    have hmine := h.unlocks List.mem_cons_self
    have hout := h.outside List.mem_cons_self
    have hbalanced := h.balanced hmine (not_midway_cons nofun)
    refine ⟨fun _ => hbalanced.congr rfl rfl rfl rfl, fun hl => absurd hl hout, fun _ => hout, fun hu => ?_,
      nofun, nofun⟩
    obtain rfl : rest = [] := by
      simpa [resetNotes, statsNotes, Counter.all, List.suffix_cons_iff] using hf.unlocks List.mem_cons_self
    cases hu

omit [DecidableEq Tid] in
theorem Balanced.le (h : Balanced m) : m.counters .advanceContentions ≤ m.counters .advanceAttempts := by
  have hattempts := h.attempts
  have hbase := h.base
  omega

structure Taking (m : Measured Tid Obj Fn) (w : Watched Tid Obj Fn) : Prop where
  blank : w.notes = statsNotes → w.snapshot.counters .advanceContentions = 0
  attempts : .walks ∈ w.notes → .loads .advanceAttempts ∉ w.notes →
    w.snapshot.counters .advanceAttempts = m.counters .advanceAttempts
  contentions : .walks ∈ w.notes → .loads .advanceContentions ∉ w.notes →
    w.snapshot.counters .advanceContentions = m.counters .advanceContentions
  ordered : w.snapshot.counters .advanceContentions ≤ w.snapshot.counters .advanceAttempts

/-- The last thing that `stats` does is to unlock. -/
theorem unlocks_of_suffix (hs : notes <:+ statsNotes) (hn : n ∈ notes) : .unlocks ∈ notes := by
  have hlast : [Note.unlocks] <:+ statsNotes := ⟨Counter.all.map .loads ++ [.walks], rfl⟩
  exact (List.suffix_of_suffix_length_le hlast hs (List.length_pos_of_mem hn)).subset List.mem_cons_self

private theorem Formed.unlocks_of_loads {k : Counter} (h : Formed notes) (hk : .loads k ∈ notes) : .unlocks ∈ notes :=
  unlocks_of_suffix (h.reads k hk) hk

private theorem Formed.unlocks_of_walks (h : Formed notes) (hw : .walks ∈ notes) : .unlocks ∈ notes :=
  unlocks_of_suffix (h.walks hw) hw

private theorem Formed.loads_of_walks (hf : Formed (n :: rest)) (hw : .walks ∈ rest) : ∃ k, n = .loads k := by
  have hs := hf.walks (List.mem_cons_of_mem n hw)
  simp only [statsNotes, Counter.all, List.map_cons, List.map_nil, List.cons_append, List.nil_append,
    List.suffix_cons_iff, List.cons.injEq] at hs
  rcases hs with ⟨rfl, -⟩ | ⟨rfl, -⟩ | ⟨rfl, -⟩ | ⟨rfl, -⟩ | ⟨rfl, -⟩ | ⟨rfl, -⟩ | ⟨rfl, rfl⟩ | ⟨rfl, rfl⟩ | hs
  case inr.inr.inr.inr.inr.inr.inl => simp at hw
  case inr.inr.inr.inr.inr.inr.inr.inl => simp at hw
  case inr.inr.inr.inr.inr.inr.inr.inr => simp at hs
  all_goals exact ⟨_, rfl⟩

omit [DecidableEq Tid] in
/-- A thread that is not before the walk is between two snapshots, or done with the loads. -/
theorem Taking.past (h : Taking m w) (hx : w'.snapshot.counters = w.snapshot.counters) (hw : .walks ∉ w'.notes) :
    Taking m' w' where
  blank hb := absurd (by rw [hb]; decide) hw
  attempts hin := absurd hin hw
  contentions hin := absurd hin hw
  ordered := hx ▸ h.ordered

omit [DecidableEq Tid] in
theorem Taking.loads {k : Counter} {s : Option UInt64} {x : Snapshot} (h : Taking m ⟨l, s, .loads k :: rest, x⟩)
    (hf : Formed (.loads k :: rest)) (hm : m.counters .advanceContentions ≤ m.counters .advanceAttempts) :
    Taking m ⟨l, s, rest, { x with counters := Function.update x.counters k (m.counters k) }⟩ := by
  have hs := hf.reads k List.mem_cons_self
  have hkeep {k' : Counter} (hne : k' ≠ k) (hout : .loads k' ∉ rest) : .loads k' ∉ Note.loads k :: rest := by
    simp [hne, hout]
  refine ⟨fun hb => ?_, fun hw hout => ?_, fun hw hout => ?_, ?_⟩
  · obtain rfl : rest = statsNotes := hb
    exact absurd hs.length_le (by simp)
  · by_cases hk : Counter.advanceAttempts = k
    · subst hk
      simp
    · exact (Function.update_of_ne hk ..).trans (h.attempts (List.mem_cons_of_mem _ hw) (hkeep hk hout))
  · by_cases hk : Counter.advanceContentions = k
    · subst hk
      simp
    · exact (Function.update_of_ne hk ..).trans (h.contentions (List.mem_cons_of_mem _ hw) (hkeep hk hout))
  · cases k with
    | advanceAttempts =>
      have hall : Note.loads .advanceAttempts :: rest = statsNotes := by
        simpa [statsNotes, Counter.all, List.suffix_cons_iff] using hs
      exact (h.blank hall).le.trans (Nat.zero_le _)
    | advanceContentions =>
      obtain rfl : rest = statsNotes.tail.tail := by
        simpa [statsNotes, Counter.all, List.suffix_cons_iff] using hs
      have hwalks : Note.walks ∈ Note.loads .advanceContentions :: statsNotes.tail.tail := by decide
      have hout : Note.loads .advanceAttempts ∉ Note.loads .advanceContentions :: statsNotes.tail.tail := by decide
      have hloaded : x.counters .advanceAttempts = m.counters .advanceAttempts := h.attempts hwalks hout
      simpa [hloaded] using hm
    | _ => exact h.ordered

structure Keeping (m : Measured Tid Obj Fn) (t : Tid) (w : Watched Tid Obj Fn) : Prop where
  formed : Formed w.notes
  holding : Holding m t w
  taking : Taking m w

private theorem taking_own (hd : Does t m a w m' w') (h : Keeping m t w) : Taking m' w' := by
  obtain ⟨hf, hholding, h⟩ := h
  have hpast {n : Note} {rest : List Note} (hf : Formed (n :: rest)) (hn : ∀ k, n ≠ .loads k) : .walks ∉ rest :=
    fun hw => (hf.loads_of_walks hw).elim hn
  have hall (k : Counter) : Note.loads k ∈ statsNotes := by cases k <;> decide
  have hnone : Note.walks ∉ resetNotes := by decide
  cases hd with
  | accesses => exact h.past rfl fun hw => absurd rfl (due_plain hw).2.1
  | reads => exact ⟨fun _ => rfl, fun _ hout => absurd (hall _) hout, fun _ hout => absurd (hall _) hout, Nat.le_refl _⟩
  | resets => exact h.past rfl hnone
  | measures => exact h.past rfl (List.not_mem_cons_of_ne_of_not_mem nofun (hpast hf nofun))
  | observes hn => exact h.past rfl (List.not_mem_cons_of_ne_of_not_mem nofun (hpast hf hn.not_loads))
  | keeps hn => exact h.past rfl (hpast hf hn.not_loads)
  | loads =>
    have hmine := hholding.unlocks (hf.unlocks_of_loads List.mem_cons_self)
    exact h.loads hf (hholding.balanced hmine (not_midway_cons nofun)).le
  | _ => exact h.past rfl (hpast hf nofun)

theorem keeping_of_reachable
    {ok : Config Tid (Measured Tid Obj Fn) (Watched Tid Obj Fn) → Tid → StatAction Obj Fn → Prop}
    (h : (measured Tid Obj Fn).Reachable ok (start Tid Obj Fn) c) :
    (c.shared.dom.lock = none → Balanced c.shared) ∧ ∀ t, Keeping c.shared t (c.locals t) := by
  have hstable : (measured Tid Obj Fn).Stable ok (fun m => m.dom.lock = none → Balanced m) Keeping := by
    constructor
    · intro c t a m w _ hfree hj hs
      have hd := does_of_step hs
      obtain ⟨hfree', hholding⟩ := holding_own hd (hj t).formed hfree (hj t).holding
      exact ⟨hfree', formed_own hd (hj t).formed, hholding, taking_own hd (hj t)⟩
    · intro c t a m w _ _ hj hs u hne
      have hd := does_of_step hs
      obtain ⟨hf, hholding, htaking⟩ := hj u
      have hstill (hw : .walks ∈ (c.locals u).notes) : Still c.shared m :=
        still_of_held hd (hj t).formed (hj t).holding hne (hholding.unlocks (hf.unlocks_of_walks hw))
      refine ⟨hf, holding_others hd (hj t).formed (hj t).holding hne hholding, htaking.blank, fun hw hout => ?_,
        fun hw hout => ?_, htaking.ordered⟩
      · exact (htaking.attempts hw hout).trans (hstill hw).attempts.symm
      · exact (htaking.contentions hw hout).trans (hstill hw).contentions.symm
  refine hstable.reachable (fun _ => ⟨rfl, Nat.le_refl _⟩) (fun t => ⟨?_, ?_, ?_⟩) h
  · constructor <;> simp [start]
  · exact ⟨False.elim, by simp [start], by simp [start], nofun, nofun⟩
  · exact ⟨by simp [start, statsNotes], by simp [start], by simp [start], Nat.le_refl _⟩

/-- In every interleaving, resets included: while the lock is free, and in the snapshot that `stats` is about
to complete, the attempts are the contentions and the advancements there have been since the last
reset; and no snapshot ever shows more contentions than attempts. -/
theorem attempts_are_counted
    {ok : Config Tid (Measured Tid Obj Fn) (Watched Tid Obj Fn) → Tid → StatAction Obj Fn → Prop}
    (h : (measured Tid Obj Fn).Reachable ok (start Tid Obj Fn) c) :
    (c.shared.dom.lock = none → c.shared.counters .advanceAttempts =
      c.shared.counters .advanceContentions + (c.shared.dom.epoch.global - c.shared.base)) ∧
    (∀ t, (c.locals t).notes = [.walks, .unlocks] → (c.locals t).snapshot.counters .advanceAttempts =
      (c.locals t).snapshot.counters .advanceContentions + (c.shared.dom.epoch.global - c.shared.base)) ∧
    ∀ t, (c.locals t).snapshot.counters .advanceContentions ≤ (c.locals t).snapshot.counters .advanceAttempts := by
  obtain ⟨hfree, hkeeping⟩ := keeping_of_reachable h
  have hbalance (hb : Balanced c.shared) : c.shared.counters .advanceAttempts =
      c.shared.counters .advanceContentions + (c.shared.dom.epoch.global - c.shared.base) := by
    have hattempts := hb.attempts
    have hbase := hb.base
    omega
  refine ⟨fun hlock => hbalance (hfree hlock), fun t hn => ?_, fun t => (hkeeping t).taking.ordered⟩
  obtain ⟨-, hholding, htaking⟩ := hkeeping t
  have hmine := hholding.unlocks (by simp [hn])
  have hmid : ¬ Midway (c.locals t).notes := by
    rw [hn]
    exact not_midway_cons nofun
  rw [htaking.attempts (by simp [hn]) (by simp [hn]), htaking.contentions (by simp [hn]) (by simp [hn])]
  exact hbalance (hholding.balanced hmine hmid)

/-- The counters are read in the middle of an advancement, after a reset. -/
theorem attempts_are_counted_reading : ∃ c : Config Bool (Measured Bool Unit Unit) (Watched Bool Unit Unit),
    (c.locals false).notes = [.walks, .unlocks] ∧ (c.shared.dom.epoch.global, c.shared.base) = (2, 1) ∧
      (c.locals false).snapshot.counters .advanceAttempts =
        (c.locals false).snapshot.counters .advanceContentions + (c.shared.dom.epoch.global - c.shared.base) := by
  have hrun : ((measured Bool Unit Unit).exec Program.anyStep (start Bool Unit Unit)
      ([(false, .resetStats)] ++ List.replicate 7 (false, .note 1) ++
        [(true, .access .synchronizeEager), (true, .access (.run true)), (true, .access (.run true)),
          (false, .stats)] ++
        List.replicate 6 (false, .note 2))).map
      (fun c => ((c.locals false).notes, c.shared.dom.epoch.global, c.shared.base)) =
        some ([.walks, .unlocks], 2, 1) := by
    decide
  obtain ⟨c, hc, he⟩ := Option.map_eq_some_iff.mp hrun
  obtain ⟨hnotes, hwords⟩ := Prod.mk.injEq _ _ _ _ ▸ he
  exact ⟨c, hnotes, hwords, (attempts_are_counted (.of_exec .init hc)).2.1 false hnotes⟩

end Attempts

section Timeouts

def StatAction.resets : StatAction Obj Fn → Bool
  | .resetStats => true
  | _ => false

def NoReset (_c : Config Tid (Measured Tid Obj Fn) (Watched Tid Obj Fn)) (_t : Tid) (a : StatAction Obj Fn) : Prop :=
  a ≠ .resetStats

instance (c : Config Tid (Measured Tid Obj Fn) (Watched Tid Obj Fn)) (t : Tid) (a : StatAction Obj Fn) :
    Decidable (NoReset c t a) :=
  decidable_of_iff (a.resets = false) (by cases a <;> simp [StatAction.resets, NoReset])

/-- Contentions of `synchronize_until` whose retry is still to be counted. -/
def unretried (w : Watched Tid Obj Fn) : Nat := w.notes.count (.increments .advanceRetries)

def undecided (w : Watched Tid Obj Fn) : Nat :=
  w.notes.count (.increments .advanceTimeouts) + match w.thread.pc with
    | .untilContended _ => if .increments .advanceRetries ∈ w.notes then 0 else 1
    | _ => 0

def unproven (w : Watched Tid Obj Fn) : Nat :=
  w.notes.count (.increments .gracePeriodTimeouts) + match w.thread.pc with
    | .advanceStore _ _ | .readersHead _ _ | .readersPassed _ _ _ => 1
    | _ => 0

/-- What one step adds to a counter it takes from what it was bounded by. -/
structure Pays (m m' : Measured Tid Obj Fn) (w w' : Watched Tid Obj Fn) : Prop where
  retries : m'.counters .advanceRetries + unretried w' + m.counters .advanceContentions ≤
    m.counters .advanceRetries + unretried w + m'.counters .advanceContentions
  timeouts : m'.counters .advanceTimeouts + undecided w' + m.counters .advanceRetries ≤
    m.counters .advanceTimeouts + undecided w + m'.counters .advanceRetries
  graces : m'.counters .gracePeriodTimeouts + m'.base + unproven w' + m.dom.epoch.global ≤
    m.counters .gracePeriodTimeouts + m.base + unproven w + m'.dom.epoch.global

omit [DecidableEq Tid] in
theorem pays_of_first {s s' : Option UInt64} {x x' : Snapshot} (hfirst : l'.pc.First)
    (hc : m.counters .advanceContentions ≤ m'.counters .advanceContentions)
    (hr : m'.counters .advanceRetries = m.counters .advanceRetries)
    (ht : m'.counters .advanceTimeouts = m.counters .advanceTimeouts)
    (hg : m'.counters .gracePeriodTimeouts = m.counters .gracePeriodTimeouts) (hb : m'.base = m.base)
    (he : m.dom.epoch.global ≤ m'.dom.epoch.global) : Pays m m' ⟨l, s, [], x⟩ ⟨l', s', [], x'⟩ := by
  obtain ⟨pc, b⟩ := l'
  have hnone : undecided (⟨⟨pc, b⟩, s', [], x'⟩ : Watched Tid Obj Fn) = 0 ∧
      unproven (⟨⟨pc, b⟩, s', [], x'⟩ : Watched Tid Obj Fn) = 0 := by
    cases pc with
    | untilContended | advanceStore | readersHead | readersPassed => exact hfirst.elim
    | _ => exact ⟨rfl, rfl⟩
  have hretried : unretried (⟨⟨pc, b⟩, s', [], x'⟩ : Watched Tid Obj Fn) = 0 := rfl
  constructor
  · omega
  · omega
  · omega

private theorem pays_accesses {s s' : Option UInt64} {x x' : Snapshot} (hm : Moves t m.dom b l d' l') :
    Pays m { m with dom := d', counters := tally m.dom m.counters l.pc } ⟨l, s, [], x⟩
      ⟨l', s', due s.isSome l.pc l'.pc, x'⟩ := by
  cases hm with
  | called hs => exact pays_of_first (first_of_start hs) (Nat.le_refl _) rfl rfl rfl rfl (Nat.le_refl _)
  | registers => exact pays_of_first (first_afterThread _) (Nat.le_refl _) rfl rfl rfl rfl (Nat.le_refl _)
  | contendedUntil _ hs | contended _ hs =>
    constructor <;> simp +arith [unretried, undecided, unproven, due, tally, hs, increment, publishLocalBatchLocked]
  | deferred _ hs hc =>
    constructor <;> simp [unretried, undecided, unproven, due, tally, hs, hc, publishLocalBatchLocked]
  | @begins _ eager _ _ _ hs hk =>
    have hdue : ¬ (eager = false ∧ m.dom.syncCount + 1 < epochBatch) := by
      rintro ⟨rfl, hlt⟩
      exact Nat.not_le.mpr hlt hk.2
    have htally : tally m.dom m.counters (.synchronizeLock eager) = increment .advanceAttempts m.counters := by
      simp only [tally, if_neg (not_not.mpr hs), if_neg hdue]
    constructor <;>
      simp +arith [unretried, undecided, unproven, due, htally, increment, advance, publishLocalBatchLocked]
  | beginsUntil _ hs =>
    constructor <;> simp +arith
      [unretried, undecided, unproven, due, tally, hs, increment, advance, publishLocalBatchLocked]
  | @advances _ g =>
    constructor <;> cases g <;> cases s <;> simp [unretried, undecided, unproven, due, tally]
  | completes => constructor <;> simp [unretried, undecided, unproven, due, tally]
  | _ => constructor <;> simp [unretried, undecided, unproven, due, tally, publishLocalBatchLocked]

/-- A step that does not reset keeps the bounds. -/
theorem pays_of_does (hd : Does t m a w m' w') (ha : a ≠ .resetStats) (hclears : ∀ k, .clears k ∉ w.notes) :
    Pays m m' w w' := by
  cases hd with
  | accesses hm => exact pays_accesses hm
  | resets => exact absurd rfl ha
  | reads => constructor <;> simp [unretried, undecided, unproven, statsNotes, Counter.all]
  | @increments _ k l s rest x =>
    have hplace : undecided ⟨l, s, rest, x⟩ + (if k = .advanceTimeouts then 1 else 0) ≤
        undecided ⟨l, s, .increments k :: rest, x⟩ + if k = .advanceRetries then 1 else 0 := by
      unfold undecided
      cases k <;> simp +arith
      split
      · split <;> simp
      · simp
    constructor
    · cases k <;> simp +arith [unretried, increment]
    · cases k <;> simp +arith [increment] at hplace ⊢ <;> omega
    · cases k <;> simp +arith [unproven, increment]
  | clears => exact absurd List.mem_cons_self (hclears _)
  | @observes _ n _ _ _ _ _ hn =>
    cases n with
    | observes | exchanges => constructor <;> simp [unretried, undecided, unproven]
    | _ => exact hn.elim
  | @keeps _ n _ _ _ _ _ hn =>
    cases n with
    | observes | exchanges => constructor <;> simp [unretried, undecided, unproven]
    | _ => exact hn.elim
  | _ => constructor <;> simp [unretried, undecided, unproven]

theorem not_clears_of_reachable (h : (measured Tid Obj Fn).Reachable NoReset (start Tid Obj Fn) c) (t : Tid)
    (k : Counter) :
    .clears k ∉ (c.locals t).notes := by
  have hstable : (measured Tid Obj Fn).Stable NoReset (fun _ => True) (fun _ _ w => ∀ k, .clears k ∉ w.notes) := by
    constructor
    · intro c t a m w hok _ hj hs
      refine ⟨trivial, fun k => ?_⟩
      have hd := does_of_step hs
      have hnone := hj t k
      generalize c.locals t = w₀ at hd hnone
      cases hd with
      | resets => exact absurd rfl hok
      | reads => simp [statsNotes, Counter.all]
      | accesses => exact fun hk => absurd rfl ((due_plain hk).2.2.2.1 k)
      | measures | observes => exact List.not_mem_cons_of_ne_of_not_mem nofun (List.not_mem_of_not_mem_cons hnone)
      | _ => exact List.not_mem_of_not_mem_cons hnone
    · exact fun _ _ hj _ u _ => hj u
  exact (hstable.reachable trivial (fun _ _ => List.not_mem_nil) h).2 t k

/-- Without resets the diagnostics tell the two kinds of timeout apart: in every interleaving each timeout
of an advancement is one of the retries, each retry one of the contentions, and each timeout of a grace
period one of the advancements. -/
theorem timeouts_are_counted [Fintype Tid] (h : (measured Tid Obj Fn).Reachable NoReset (start Tid Obj Fn) c) :
    c.shared.counters .advanceTimeouts ≤ c.shared.counters .advanceRetries ∧
    c.shared.counters .advanceRetries ≤ c.shared.counters .advanceContentions ∧
    c.shared.counters .gracePeriodTimeouts + c.shared.counters .advanceContentions ≤
      c.shared.counters .advanceAttempts := by
  have hbounds : c.shared.counters .advanceRetries + total unretried c.locals ≤ c.shared.counters .advanceContentions ∧
      c.shared.counters .advanceTimeouts + total undecided c.locals ≤ c.shared.counters .advanceRetries ∧
      c.shared.counters .gracePeriodTimeouts + c.shared.base + total unproven c.locals ≤ c.shared.dom.epoch.global := by
    refine (h.assuming fun _ h => not_clears_of_reachable h).invariant
      (P := fun c => c.shared.counters .advanceRetries + total unretried c.locals ≤
          c.shared.counters .advanceContentions ∧
        c.shared.counters .advanceTimeouts + total undecided c.locals ≤ c.shared.counters .advanceRetries ∧
        c.shared.counters .gracePeriodTimeouts + c.shared.base + total unproven c.locals ≤
          c.shared.dom.epoch.global) ?_ ?_
    · simp [start, total, unretried, undecided, unproven]
    · rintro c t a c' ⟨hr, ht, hg⟩ ⟨hclears, hok⟩ hn
      obtain ⟨m, w, hs, rfl⟩ := Program.next_eq_some_iff.mp hn
      have hpays := pays_of_does (does_of_step hs) hok (hclears t)
      exact ⟨bound_update hr hpays.retries, bound_update ht hpays.timeouts, bound_update hg hpays.graces⟩
  obtain ⟨hr, ht, hg⟩ := hbounds
  obtain ⟨hfree, hkeeping⟩ := keeping_of_reachable h
  have hbalanced : Balanced c.shared := by
    cases hlock : c.shared.dom.lock with
    | none => exact hfree hlock
    | some t => exact (hkeeping t).holding.balanced hlock fun hmid => not_clears_of_reachable h t _ hmid.clears
  have hattempts := hbalanced.attempts
  omega

/-- A writer finds the advancement taken and gives up. -/
theorem timeouts_are_counted_waiting : ∃ c : Config Bool (Measured Bool Unit Unit) (Watched Bool Unit Unit),
    (c.shared.counters .advanceTimeouts, c.shared.counters .advanceRetries, c.shared.counters .advanceContentions) =
      (1, 1, 1) ∧ c.shared.counters .gracePeriodTimeouts + 1 ≤ c.shared.counters .advanceAttempts := by
  have hrun : ((measured Bool Unit Unit).exec NoReset (start Bool Unit Unit)
      [(true, .access .synchronizeEager), (true, .access (.run true)), (true, .access (.run true)),
        (false, .access (.synchronizeUntil true)), (false, .access (.run true)), (false, .note 5), (false, .note 5),
        (false, .access (.run true)), (false, .note 9), (false, .note 9), (false, .note 9), (false, .note 9)]).map
      (fun c => (c.shared.counters .advanceTimeouts, c.shared.counters .advanceRetries,
        c.shared.counters .advanceContentions)) = some (1, 1, 1) := by
    decide
  obtain ⟨c, hc, he⟩ := Option.map_eq_some_iff.mp hrun
  obtain ⟨-, -, hgraces⟩ := timeouts_are_counted (.of_exec .init hc)
  have hcontentions : c.shared.counters .advanceContentions = 1 := congrArg (fun r => r.2.2) he
  exact ⟨c, he, hcontentions ▸ hgraces⟩

end Timeouts
end Abix.RCU.Stats
