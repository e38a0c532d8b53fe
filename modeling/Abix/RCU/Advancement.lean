import Abix.RCU.Custody

/-! Who owns the epoch advancement, and how the watermarks follow the epoch. -/
namespace Abix.RCU
open Abix.Concurrency
variable {Tid Obj Fn : Type} [DecidableEq Tid] {t u : Tid} {a : Action Obj Fn} {sh sh' : Shared Tid Obj Fn}
  {l l' lu : Local Tid Obj Fn} {c : Config Tid (Shared Tid Obj Fn) (Local Tid Obj Fn)}

/-- The advancement that a thread owns, by the epoch it left: from its store to `sync` to the
store that clears it. -/
def Pc.owns : Pc Tid Obj Fn → Option Nat
  | .readersHead _ old | .readersPassed _ old _ => some old
  | .collectLock old fin | .collect old fin | .sweep old _ _ _ fin => if fin.clear then some old else none
  | _ => none

def Pc.advancing : Pc Tid Obj Fn → Option Nat
  | .advanceStore _ old => some old
  | pc => pc.owns

def Pc.Returned : Pc Tid Obj Fn → Prop
  | .idle _ | .exited => True
  | _ => False

/-- The epoch that a thread has loaded, or is about to collect through, as `try_collect` and the
owner of an advancement bound it. -/
def Behind (sh : Shared Tid Obj Fn) : Pc Tid Obj Fn → Prop
  | .collectLock safe _ | .collect safe _ | .sweep safe _ _ _ _ | .readersHead _ safe | .readersPassed _ safe _
  | .advanceStore _ safe => safe < sh.epoch.global
  | .minHead m | .minScan m _ => m ≤ sh.epoch.global
  | _ => True

inductive Bears (sh sh' : Shared Tid Obj Fn) (pc pc' : Pc Tid Obj Fn) : Prop
  | keeps : sh'.epoch.sync = sh.epoch.sync → sh'.epoch.global = sh.epoch.global → pc'.advancing = pc.advancing →
      pc'.owns = pc.owns → Bears sh sh' pc pc'
  | begins : sh.lock = none → sh.epoch.sync = 0 → sh'.epoch.sync = 0 → sh'.epoch.global = sh.epoch.global + 1 →
      pc.advancing = none → pc'.advancing = some sh.epoch.global → pc'.owns = none → Bears sh sh' pc pc'
  | takes (old : Nat) : sh'.epoch.sync = old + 1 → sh'.epoch.global = sh.epoch.global → pc.advancing = some old →
      pc.owns = none → pc'.advancing = some old → pc'.owns = some old → Bears sh sh' pc pc'
  | clears (old : Nat) : sh'.epoch.sync = 0 → sh'.epoch.global = sh.epoch.global → pc.owns = some old →
      pc'.advancing = none → pc'.owns = none → Bears sh sh' pc pc'

omit [DecidableEq Tid] in
theorem owns_advancing {pc : Pc Tid Obj Fn} {old : Nat} (h : pc.owns = some old) : pc.advancing = some old := by
  cases pc with
  | advanceStore => cases h
  | _ => exact h

omit [DecidableEq Tid] in
/-- Between the move of the epoch and the store to `sync` the lock is held. -/
theorem Placed.of_advancing {pc : Pc Tid Obj Fn} {old : Nat} (hp : Placed sh t pc) (ha : pc.advancing = some old)
    (ho : pc.owns = none) : sh.lock = some t := by
  cases pc with
  | advanceStore => exact hp
  | _ => exact absurd (ho.symm.trans ha) nofun

omit [DecidableEq Tid] in
theorem Pc.First.advancing {pc : Pc Tid Obj Fn} (h : pc.First) : pc.advancing = none ∧ pc.owns = none := by
  cases pc with
  | advanceStore | readersHead | readersPassed | collectLock | collect | sweep => cases h
  | _ => exact ⟨rfl, rfl⟩

theorem Moves.bears (h : Moves t sh a l sh' l') : Bears sh sh' l.pc l'.pc := by
  cases h with
  | called hs =>
    obtain ⟨ha, ho⟩ := (first_of_start hs).advancing
    exact .keeps rfl rfl ha ho
  | registers =>
    obtain ⟨ha, ho⟩ := (first_afterThread _).advancing
    exact .keeps rfl rfl ha ho
  | begins hl hs | beginsUntil hl hs => exact .begins hl hs hs rfl rfl rfl rfl
  | advances => exact .takes _ rfl rfl rfl rfl rfl rfl
  | @passed _ g =>
    cases g <;> exact .keeps rfl rfl rfl rfl
  | @finishes _ safe clear r s b hs =>
    cases clear with
    | true => exact .clears safe hs rfl rfl rfl rfl
    | false => exact .keeps hs rfl rfl rfl
  | completes => exact .keeps (by simp) (by simp) rfl rfl
  | _ => exact .keeps rfl rfl rfl rfl

/-- At most one thread advances the epoch, and `sync` says whether it owns the advancement yet. -/
structure Exclusive (c : Config Tid (Shared Tid Obj Fn) (Local Tid Obj Fn)) : Prop where
  unique : ∀ t u, (c.locals t).pc.advancing ≠ none → (c.locals u).pc.advancing ≠ none → t = u
  global : ∀ t old, (c.locals t).pc.advancing = some old → c.shared.epoch.global = old + 1
  sync : ∀ t old, (c.locals t).pc.owns = some old → c.shared.epoch.sync = old + 1
  pending : ∀ t old, (c.locals t).pc.advancing = some old → (c.locals t).pc.owns = none → c.shared.epoch.sync = 0
  owned : c.shared.epoch.sync ≠ 0 → ∃ t old, (c.locals t).pc.owns = some old

omit [DecidableEq Tid] in
/-- While `sync` is zero and the lock is free nobody advances. -/
theorem Exclusive.advancing_eq_none (h : Exclusive c) (hp : Placed c.shared u (c.locals u).pc)
    (hl : c.shared.lock = none) (hs : c.shared.epoch.sync = 0) : (c.locals u).pc.advancing = none := by
  cases ha : (c.locals u).pc.advancing with
  | none => rfl
  | some old =>
    cases ho : (c.locals u).pc.owns with
    | none => exact nomatch hl.symm.trans (hp.of_advancing ha ho)
    | some old' => exact absurd (hs.symm.trans (h.sync u old' ho)) (Nat.succ_ne_zero _).symm

omit [DecidableEq Tid] in
theorem Exclusive.advancing_ne (h : Exclusive c) (ht : (c.locals t).pc.advancing ≠ none) (u : Tid) (hne : u ≠ t) :
    (c.locals u).pc.advancing = none := by
  by_contra hu
  exact hne (h.unique u t hu ht)

/-- What has to hold of the one thread that advances. -/
theorem Exclusive.of_alone (hothers : ∀ u, u ≠ t → (c.locals u).pc.advancing = none)
    (hglobal : ∀ old, l'.pc.advancing = some old → sh'.epoch.global = old + 1)
    (hsync : ∀ old, l'.pc.owns = some old → sh'.epoch.sync = old + 1)
    (hpending : l'.pc.advancing ≠ none → l'.pc.owns = none → sh'.epoch.sync = 0)
    (howned : sh'.epoch.sync ≠ 0 → ∃ old, l'.pc.owns = some old) : Exclusive ⟨sh', Function.update c.locals t l'⟩ := by
  have hme (u : Tid) (hu : (Function.update c.locals t l' u).pc.advancing ≠ none) : u = t := by
    by_contra hne
    rw [Function.update_of_ne hne] at hu
    exact hu (hothers u hne)
  refine ⟨fun u v hu hv => (hme u hu).trans (hme v hv).symm, fun u old hu => ?_, fun u old hu => ?_, fun u old hu ho => ?_,
    fun hs => ?_⟩
  · obtain rfl := hme u (by simp [hu])
    exact hglobal old (by simpa using hu)
  · obtain rfl := hme u (by simp [owns_advancing hu])
    exact hsync old (by simpa using hu)
  · obtain rfl := hme u (by simp [hu])
    simp only [Function.update_self] at hu ho
    exact hpending (by simp [hu]) ho
  · obtain ⟨old, ho⟩ := howned hs
    exact ⟨t, old, by simpa using ho⟩

private theorem exclusive_next (h : Exclusive c) (hp : ∀ u, Placed c.shared u (c.locals u).pc)
    (hm : Moves t c.shared a (c.locals t) sh' l') : Exclusive ⟨sh', Function.update c.locals t l'⟩ := by
  cases hm.bears with
  | keeps hs hg ha ho =>
    have hadv (u : Tid) : (Function.update c.locals t l' u).pc.advancing = (c.locals u).pc.advancing := by
      by_cases hu : u = t
      · rw [hu, Function.update_self, ha]
      · rw [Function.update_of_ne hu]
    have hown (u : Tid) : (Function.update c.locals t l' u).pc.owns = (c.locals u).pc.owns := by
      by_cases hu : u = t
      · rw [hu, Function.update_self, ho]
      · rw [Function.update_of_ne hu]
    constructor <;> simp only [hadv, hown, hs, hg]
    · exact h.unique
    · exact h.global
    · exact h.sync
    · exact h.pending
    · exact h.owned
  | begins hl hs hs' hg _ ha ho =>
    refine .of_alone (fun u _ => h.advancing_eq_none (hp u) hl hs) (fun old hold => ?_) (fun old hold => ?_)
      (fun _ _ => hs') (fun hne => absurd hs' hne)
    · rw [hg, Option.some.inj (ha.symm.trans hold)]
    · exact nomatch ho.symm.trans hold
  | takes old hs hg ha _ ha' ho' =>
    refine .of_alone (h.advancing_ne (by simp [ha])) (fun o hold => ?_) (fun o hold => ?_)
      (fun _ ho => nomatch ho'.symm.trans ho) (fun _ => ⟨old, ho'⟩)
    · rw [hg, ← Option.some.inj (ha'.symm.trans hold)]
      exact h.global t old ha
    · rw [hs, Option.some.inj (ho'.symm.trans hold)]
  | clears old hs hg ho ha' ho' =>
    exact .of_alone (h.advancing_ne (by simp [owns_advancing ho])) (fun o hold => nomatch ha'.symm.trans hold)
      (fun o hold => nomatch ho'.symm.trans hold) (fun hne => absurd ha' hne) (fun hne => absurd hs hne)

theorem exclusive_of_reachable {ok : Config Tid (Shared Tid Obj Fn) (Local Tid Obj Fn) → Tid → Action Obj Fn → Prop}
    (hc : (domain Tid Obj Fn).Reachable ok (initial Tid Obj Fn) c) : Exclusive c := by
  refine (hc.assuming fun _ => custody_of_reachable).invariant (P := Exclusive) ?_ ?_
  · exact ⟨fun _ _ h => absurd rfl h, fun _ _ h => (nomatch h), fun _ _ h => (nomatch h), fun _ _ h => (nomatch h),
      fun h => absurd rfl h⟩
  · rintro c t a c' hc ⟨hcust, -⟩ hn
    obtain ⟨sh, l, hs, rfl⟩ := Program.next_eq_some_iff.mp hn
    exact exclusive_next hc hcust.placed (moves_of_step hs)

omit [DecidableEq Tid] in
theorem Behind.mono {pc : Pc Tid Obj Fn} (h : Behind sh pc) (hle : sh.epoch.global ≤ sh'.epoch.global) :
    Behind sh' pc := by
  cases pc with
  | collectLock | collect | sweep | readersHead | readersPassed | advanceStore => exact Nat.lt_of_lt_of_le h hle
  | minHead | minScan => exact Nat.le_trans h hle
  | _ => trivial

omit [DecidableEq Tid] in
theorem Pc.First.behind {pc : Pc Tid Obj Fn} (h : pc.First) : Behind sh pc := by
  cases pc with
  | advanceStore | readersHead | readersPassed | collectLock | collect | sweep | minHead | minScan => cases h
  | _ => trivial

theorem Moves.behind (h : Moves t sh a l sh' l') (hb : Behind sh l.pc) : Behind sh' l'.pc := by
  cases h with
  | called hs => exact (first_of_start hs).behind
  | registers => exact (first_afterThread _).behind
  | begins | beginsUntil => exact Nat.lt_succ_self _
  | tries => exact Nat.le_refl _
  | minLower _ hlt => exact Nat.le_trans (Nat.le_of_lt hlt) hb
  | minFound hlt => exact Nat.lt_of_lt_of_le (Nat.sub_lt (Nat.lt_trans Nat.zero_lt_one hlt) Nat.zero_lt_one) hb
  | advances | readersHead | passed | passes | rescans | givesUp | minHead | minKeep | collectLock | skips | swept
  | reclaims | keeps => exact hb
  | completes => simpa [Behind] using hb
  | _ => trivial

/-- What is known of the epochs, over any run: `sync` and the watermarks. -/
theorem behind_of_reachable {ok : Config Tid (Shared Tid Obj Fn) (Local Tid Obj Fn) → Tid → Action Obj Fn → Prop}
    (hc : (domain Tid Obj Fn).Reachable ok (initial Tid Obj Fn) c) :
    (∀ k, c.shared.epoch.completedOf k < c.shared.epoch.global) ∧ ∀ t, Behind c.shared (c.locals t).pc := by
  have hstable : (domain Tid Obj Fn).Stable ok (fun sh => ∀ k, sh.epoch.completedOf k < sh.epoch.global)
      (fun sh _ l => Behind sh l.pc) := by
    constructor
    · intro c t a sh l _ hw hb hs
      have hm := moves_of_step hs
      refine ⟨fun k => ?_, hm.behind (hb t)⟩
      rcases hm.completedOf with he | ⟨safe, k', _, _, _, hpc, -, he⟩
      · rw [he]
        exact Nat.lt_of_lt_of_le (hw k) hm.global_le
      · have hsafe := hb t
        rw [hpc] at hsafe
        rw [he, Epoch.completedOf_complete, Epoch.complete_global]
        split
        · exact hsafe
        · exact hw k
    · intro c t a sh l _ _ hb hs u _
      exact (hb u).mono (moves_of_step hs).global_le
  have hstart (k : ReclaimClass) :
      (initial Tid Obj Fn).shared.epoch.completedOf k < (initial Tid Obj Fn).shared.epoch.global := by
    cases k <;> exact Nat.zero_lt_one
  have hidle (t : Tid) : Behind (initial Tid Obj Fn).shared ((initial Tid Obj Fn).locals t).pc := trivial
  exact hstable.reachable hstart hidle hc

omit [DecidableEq Tid] in
theorem Pc.Returned.owns {pc : Pc Tid Obj Fn} (h : pc.Returned) : pc.owns = none := by
  cases pc with
  | idle | exited => rfl
  | _ => cases h

/-- Over every run: `sync` is set exactly while a thread owns an advancement, and then it is the
global epoch; one thread advances at a time, alone clears its `sync`, and nobody moves the epoch
meanwhile; epoch and watermarks only grow, the watermarks stay behind the epoch, and `sync` is
zero once every call has returned. -/
theorem advancement_is_owned (hc : (domain Tid Obj Fn).Reachable Program.anyStep (initial Tid Obj Fn) c) :
    (c.shared.epoch.sync ≠ 0 ↔ ∃ t, (c.locals t).pc.owns ≠ none) ∧
    (∀ t u, (c.locals t).pc.advancing ≠ none → (c.locals u).pc.advancing ≠ none → t = u) ∧
    (c.shared.epoch.sync ≠ 0 → c.shared.epoch.sync = c.shared.epoch.global) ∧
    (∀ t a c', (domain Tid Obj Fn).next c t a = some c' →
      (c.shared.epoch.sync ≠ 0 → c'.shared.epoch.sync ≠ c.shared.epoch.sync →
        c'.shared.epoch.sync = 0 ∧ (c.locals t).pc.owns ≠ none) ∧
      c.shared.epoch.global ≤ c'.shared.epoch.global ∧
      ((∃ u, (c.locals u).pc.advancing ≠ none) → c'.shared.epoch.global = c.shared.epoch.global) ∧
      ∀ k, c.shared.epoch.completedOf k ≤ c'.shared.epoch.completedOf k) ∧
    (∀ k, c.shared.epoch.completedOf k < c.shared.epoch.global) ∧
    ((∀ t, (c.locals t).pc.Returned) → c.shared.epoch.sync = 0) := by
  have hex := exclusive_of_reachable hc
  have hcust := custody_of_reachable hc
  have howner : c.shared.epoch.sync ≠ 0 ↔ ∃ t, (c.locals t).pc.owns ≠ none := by
    refine ⟨fun hs => ?_, fun ⟨t, ho⟩ => ?_⟩
    · obtain ⟨t, old, ho⟩ := hex.owned hs
      exact ⟨t, by simp [ho]⟩
    · obtain ⟨old, ho⟩ := Option.ne_none_iff_exists'.mp ho
      rw [hex.sync t old ho]
      exact Nat.succ_ne_zero old
  refine ⟨howner, hex.unique, fun hs => ?_, fun t a c' hn => ?_, (behind_of_reachable hc).1, fun hret => ?_⟩
  · obtain ⟨t, old, ho⟩ := hex.owned hs
    rw [hex.sync t old ho, hex.global t old (owns_advancing ho)]
  · obtain ⟨sh, l, hs, rfl⟩ := Program.next_eq_some_iff.mp hn
    have hm := moves_of_step hs
    refine ⟨fun hne hchange => ?_, hm.global_le, fun ⟨u, hu⟩ => ?_, hm.completedOf_le⟩
    · cases hm.bears with
      | keeps hs => exact absurd hs hchange
      | begins _ hs => exact absurd hs hne
      | takes old _ _ ha ho => exact absurd (hex.pending t old ha ho) hne
      | clears old hs _ ho => exact ⟨hs, by simp [ho]⟩
    · cases hm.bears with
      | begins hl hs => exact absurd (hex.advancing_eq_none (hcust.placed u) hl hs) hu
      | keeps _ hg | takes _ _ hg | clears _ _ hg => exact hg
  · by_contra hne
    obtain ⟨t, ho⟩ := howner.mp hne
    exact ho (hret t).owns

theorem advancement_is_owned_waiting : ∃ c : Config Bool (Shared Bool Unit Unit) (Local Bool Unit Unit),
    c.shared.epoch.sync = 2 ∧ ∃ t, (c.locals t).pc.owns ≠ none := by
  have hrun : ((domain Bool Unit Unit).exec Program.anyStep (initial Bool Unit Unit)
      [(true, .synchronizeEager), (true, .run true), (true, .run true)]).map (·.shared.epoch.sync) = some 2 := by
    decide
  obtain ⟨c, hc, hs⟩ := Option.map_eq_some_iff.mp hrun
  exact ⟨c, hs, (advancement_is_owned (.of_exec .init hc)).1.mp (by simp [hs])⟩

end Abix.RCU
