import Abix.RCU.Client

/-! A retired object outlives the read sections that loaded it. The argument follows one
reader: every epoch a collector takes for safe lies below the epochs of the nodes whose
objects this reader still holds, or the collector has yet to look at the reader. -/
namespace Abix.RCU.Client
open Abix.Concurrency
variable {Tid Obj Fn : Type} [DecidableEq Tid] {r t u : Tid} {a : RCU.Action Obj Fn}
  {d d' : RCU.Shared Tid Obj Fn} {l l' lu : Local Tid Obj Fn} {o : Obj}

/-- A reader that does not nest: outside, its epoch word is zero; inside, the word is the
epoch its section stored, and no node of an object it loaded is older. -/
def Reading (r : Tid) (d : RCU.Shared Tid Obj Fn) : List (Section Obj) → Prop
  | [] => d.readerEpoch r = 0
  | [s] => d.readerEpoch r = s.epoch ∧ 0 < s.epoch ∧ s.epoch ≤ d.epoch.global ∧ r ∈ d.threads ∧
      ∀ o ∈ s.loaded, ∀ n ∈ d.tagged, n.object = some o → s.epoch ≤ n.epoch
  | _ => False

def Entering (r : Tid) (d : RCU.Shared Tid Obj Fn) (inside : List (Section Obj)) : Pc Tid Obj Fn → Prop
  | .registerThread true => inside = []
  | .enterLoad => inside = [] ∧ r ∈ d.threads
  | .enterStore e => inside = [] ∧ r ∈ d.threads ∧ 0 < e ∧ e ≤ d.epoch.global
  | _ => True

/-- No node below the bound is of an object the reader holds, unless the reader is still
to be looked at. -/
def Clear (r : Tid) (sh : Shared Tid Obj Fn) (bound : Nat) (rest : List Tid) : Prop :=
  bound ≤ sh.dom.epoch.global ∧
    ∀ n ∈ sh.dom.tagged, n.epoch < bound → ∀ o, n.object = some o → Holds sh r o → r ∈ rest

def Scanned (r : Tid) (sh : Shared Tid Obj Fn) : Pc Tid Obj Fn → Prop
  | .advanceStore _ old | .readersHead _ old => old + 1 ≤ sh.dom.epoch.global
  | .readersPassed _ old rest => Clear r sh (old + 1) rest
  | .minHead current => current ≤ sh.dom.epoch.global
  | .minScan min rest => Clear r sh min rest
  | .collectLock safe fin | .collect safe fin => fin.todo ≠ [] → Clear r sh (safe + 1) []
  | .sweep safe _ _ _ _ => Clear r sh (safe + 1) []
  | _ => True

def Retiring (sh : Shared Tid Obj Fn) : Pc Tid Obj Fn → Prop
  | .retireLoad object _ _ => ∀ o ∈ object, o ∈ sh.handed
  | _ => True

structure Guarded (r : Tid) (sh : Shared Tid Obj Fn) : Prop where
  global_pos : 0 < sh.dom.epoch.global
  handed_out : ∀ o ∈ sh.handed, some o ∉ sh.ptrs
  tagged_handed : ∀ n ∈ sh.dom.tagged, ∀ o, n.object = some o → o ∈ sh.handed
  reading : Reading r sh.dom (sh.sections r)

structure Assertion (r : Tid) (sh : Shared Tid Obj Fn) (u : Tid) (l : Local Tid Obj Fn) : Prop where
  retiring : Retiring sh l.pc
  scanned : Scanned r sh l.pc
  entering : u = r → Entering r sh.dom (sh.sections r) l.pc

omit [DecidableEq Tid] in
/-- A reader that holds the object of a tagged node keeps that node's epoch from being safe. -/
theorem Guarded.blocks {sh : Shared Tid Obj Fn} (h : Guarded r sh) {n : RetiredNode Obj Fn}
    (hn : n ∈ sh.dom.tagged) (ho : n.object = some o) (hheld : Holds sh r o) :
    sh.dom.readerEpoch r ≠ 0 ∧ sh.dom.readerEpoch r ≤ n.epoch ∧ r ∈ sh.dom.threads := by
  obtain ⟨s, hs, hload⟩ := hheld
  have hr := h.reading
  match hsec : sh.sections r with
  | [] => simp [hsec] at hs
  | [s'] =>
    rw [hsec] at hr hs
    obtain rfl := List.mem_singleton.mp hs
    obtain ⟨he, hpos, -, hth, hold⟩ := hr
    exact ⟨by omega, he ▸ hold o hload n hn ho, hth⟩
  | _ :: _ :: _ => simp [hsec, Reading] at hr

/-- A section survives every step that is not an end of one: the words it depends on grow. -/
theorem Reading.mono {inside : List (Section Obj)} (h : Reading r d inside) (hm : RCU.Moves t d a l d' l')
    (he : d'.readerEpoch r = d.readerEpoch r) : Reading r d' inside := by
  match inside with
  | [] => exact he.trans h
  | [s] =>
    obtain ⟨hs, hpos, hle, hth, hold⟩ := h
    refine ⟨he.trans hs, hpos, hle.trans hm.global_le, hm.threads_subset hth, ?_⟩
    intro o ho n hn hno
    rcases hm.tagged with ht | ⟨m, ht, hme, -⟩
    · exact hold o ho n (ht ▸ hn) hno
    · rw [ht] at hn
      rcases List.mem_cons.mp hn with rfl | hn
      · exact hme ▸ hle
      · exact hold o ho n hn hno
  | _ :: _ :: _ => exact h

theorem Entering.mono {inside : List (Section Obj)} {pc : Pc Tid Obj Fn} (h : Entering r d inside pc)
    (hm : RCU.Moves t d a l d' l') : Entering r d' inside pc := by
  cases pc with
  | registerThread entering => cases entering <;> exact h
  | enterLoad => exact ⟨h.1, hm.threads_subset h.2⟩
  | enterStore e => exact ⟨h.1, hm.threads_subset h.2.1, h.2.2.1, h.2.2.2.trans hm.global_le⟩
  | _ => trivial

private theorem reading_own {inside : List (Section Obj)} (hr : Reading r d inside) (he : Entering r d inside l.pc)
    (hc : balanced inside a = true) (hm : RCU.Moves r d a l d' l') : Reading r d' (sectionsAfter inside l.pc) := by
  have hkeep : d'.readerEpoch r = d.readerEpoch r → Reading r d' inside := fun he => hr.mono hm he
  cases hm with
  | exits =>
    obtain rfl := List.isEmpty_iff.mp hc
    exact Function.update_self _ _ _
  | enters =>
    obtain ⟨rfl, hth, hpos, hle⟩ := he
    exact ⟨Function.update_self _ _ _, hpos, hle, hth, by simp⟩
  | leaves =>
    match inside with
    | [] | [_] => exact Function.update_self _ _ _
    | _ :: _ :: _ => exact hr.elim
  | _ => exact hkeep rfl

variable {sh sh' : Shared Tid Obj Fn} {b : Action Obj Fn}

/-- An object comes into a reader's hands only from a shared pointer. -/
theorem Moves.held (h : Moves t sh b l sh' l') (ho : Holds sh' r o) : Holds sh r o ∨ some o ∈ sh.ptrs := by
  by_cases hr : r = t
  · subst hr
    obtain ⟨s, hs, hload⟩ := ho
    cases h with
    | domain hc hm =>
      simp only [Function.update_self] at hs
      left
      cases hm with
      | enters =>
        rcases List.mem_cons.mp hs with rfl | hs
        · cases hload
        · exact ⟨s, hs, hload⟩
      | leaves => exact ⟨s, List.mem_of_mem_tail hs, hload⟩
      | _ => exact ⟨s, hs, hload⟩
    | loads hsec hp =>
      simp only [Function.update_self] at hs
      rcases List.mem_cons.mp hs with rfl | hs
      · rcases List.mem_cons.mp hload with rfl | hload
        · exact .inr hp
        · exact .inl ⟨_, hsec ▸ List.mem_cons_self, hload⟩
      · exact .inl ⟨s, hsec ▸ List.mem_cons_of_mem _ hs, hload⟩
    | swaps => exact .inl ⟨s, hs, hload⟩
  · left
    obtain ⟨s, hs, hload⟩ := ho
    refine ⟨s, ?_, hload⟩
    cases h with
    | domain | loads => simpa [Function.update_of_ne hr] using hs
    | swaps => exact hs

theorem Moves.global_le (h : Moves t sh b l sh' l') : sh.dom.epoch.global ≤ sh'.dom.epoch.global := by
  cases h with
  | domain _ hm => exact hm.global_le
  | loads | swaps => exact Nat.le_refl _

/-- A bound that is clear of the reader stays clear: what it holds later was not retired,
and what is retired later is tagged with a later epoch. -/
theorem Clear.mono {bound : Nat} {rest : List Tid} (h : Clear r sh bound rest) (hg : Guarded r sh)
    (hm : Moves t sh b l sh' l') : Clear r sh' bound rest := by
  refine ⟨h.1.trans hm.global_le, ?_⟩
  intro n hn hlt o ho hheld
  have hold : n ∈ sh.dom.tagged := by
    cases hm with
    | domain _ hm =>
      rcases hm.tagged with ht | ⟨m, ht, hme, -⟩
      · exact ht ▸ hn
      · rcases List.mem_cons.mp (ht ▸ hn) with rfl | hn
        · exact absurd (hme ▸ hlt) (Nat.not_lt.mpr h.1)
        · exact hn
    | loads | swaps => exact hn
  rcases hm.held hheld with hheld | hptr
  · exact h.2 n hold hlt o ho hheld
  · exact absurd hptr (hg.handed_out o (hg.tagged_handed n hold o ho))

theorem Scanned.mono {pc : Pc Tid Obj Fn} (h : Scanned r sh pc) (hg : Guarded r sh) (hm : Moves t sh b l sh' l') :
    Scanned r sh' pc := by
  cases pc with
  | advanceStore | readersHead | minHead => exact Nat.le_trans h hm.global_le
  | readersPassed | minScan | sweep => exact Clear.mono h hg hm
  | collectLock | collect => exact fun ht => (h ht).mono hg hm
  | _ => trivial

omit [DecidableEq Tid] in
/-- A scan that starts is clear of the readers that are not in the list. -/
theorem Guarded.clear_threads (hg : Guarded r sh) {bound : Nat} (hle : bound ≤ sh.dom.epoch.global) :
    Clear r sh bound sh.dom.threads :=
  ⟨hle, fun _ hn _ _ ho hheld => (hg.blocks hn ho hheld).2.2⟩

omit [DecidableEq Tid] in
/-- Passing over a thread whose epoch word is zero or not below the bound. -/
theorem Clear.pass {bound bound' : Nat} {rest : List Tid} (h : Clear r sh bound (u :: rest)) (hg : Guarded r sh)
    (hle : bound' ≤ bound) (hu : sh.dom.readerEpoch u ≠ 0 → bound' ≤ sh.dom.readerEpoch u) :
    Clear r sh bound' rest := by
  refine ⟨hle.trans h.1, ?_⟩
  intro n hn hlt o ho hheld
  rcases List.mem_cons.mp (h.2 n hn (hlt.trans_le hle) o ho hheld) with rfl | hr
  · obtain ⟨hne, hble, -⟩ := hg.blocks hn ho hheld
    exact absurd (hlt.trans_le (hu hne)) (Nat.not_lt.mpr hble)
  · exact hr

omit [DecidableEq Tid] in
theorem scanned_of_first {pc : Pc Tid Obj Fn} (h : pc.First) : Scanned r sh pc := by
  cases pc with
  | advanceStore | readersHead | readersPassed | minHead | minScan | collectLock | collect | sweep => exact h.elim
  | _ => trivial

/-- What the thread that moves has established after a step of the domain. -/
theorem scanned_own (hg : Guarded r sh) (hs : Scanned r sh l.pc) (hm : RCU.Moves t sh.dom a l d' l')
    (hdom : ∀ pc, Scanned r sh pc → Scanned r sh' pc) (hglobal : sh'.dom.epoch.global = d'.epoch.global) :
    Scanned r sh' l'.pc := by
  cases hm with
  | called h => exact scanned_of_first (first_of_start h)
  | registers => exact scanned_of_first (first_afterThread _)
  | begins | beginsUntil => exact hglobal.ge
  | advances => exact hdom (.readersHead _ _) hs
  | readersHead => exact hdom (.readersPassed _ _ _) (hg.clear_threads hs)
  | passed => exact hdom (.collectLock _ _) fun _ => hs
  | passes hu =>
    refine hdom (.readersPassed _ _ _) (Clear.pass hs hg (Nat.le_refl _) fun hne => ?_)
    exact Nat.lt_of_not_le fun hle => hu ⟨hne, hle⟩
  | rescans => exact hdom (.readersHead _ _) hs.1
  | givesUp => exact fun hne => absurd rfl hne
  | tries => exact hdom (.minHead _) (Nat.le_refl sh.dom.epoch.global)
  | minHead => exact hdom (.minScan _ _) (hg.clear_threads hs)
  | minKeep hu =>
    refine hdom (.minScan _ _) (Clear.pass hs hg (Nat.le_refl _) fun hne => ?_)
    exact Nat.le_of_not_lt fun hlt => hu ⟨hne, hlt⟩
  | minLower _ hlt => exact hdom (.minScan _ _) (Clear.pass hs hg hlt.le fun _ => Nat.le_refl _)
  | minFound h1 => exact hdom (.collectLock _ _) fun _ => by rwa [Nat.sub_add_cancel h1.le]
  | collectLock => exact hdom (.collect _ _) hs
  | skips => exact hdom (.collect _ _) fun _ => hs (by simp)
  | completes => exact hdom (.sweep _ _ _ _ _) (hs (by simp))
  | swept => exact hdom (.collect _ _) fun _ => hs
  | reclaims | keeps => exact hdom (.sweep _ _ _ _ _) hs
  | _ => trivial

private theorem entering_getThread {inside : List (Section Obj)} {entering : Bool}
    (h : entering = true → inside = []) : Entering r d inside (getThread r d entering) := by
  unfold getThread afterThread
  cases entering with
  | false => split <;> trivial
  | true =>
    split
    · exact ⟨h rfl, ‹_›⟩
    · exact h rfl

private theorem entering_own {inside : List (Section Obj)} (hpos : 0 < d.epoch.global)
    (hflat : nests inside (.domain a) = false) (he : Entering r d inside l.pc) (hm : RCU.Moves r d a l d' l') :
    Entering r d' (sectionsAfter inside l.pc) l'.pc := by
  cases hm with
  | called h =>
    cases a with
    | enter =>
      cases h
      have hnil : inside = [] := by simpa [nests] using hflat
      exact entering_getThread fun _ => hnil
    | exit =>
      cases h
      exact entering_getThread (by simp)
    | _ => cases h <;> trivial
  | @registers _ entering =>
    cases entering with
    | false => trivial
    | true => exact ⟨he, List.mem_cons_self⟩
  | loads => exact ⟨he.1, he.2, hpos, Nat.le_refl _⟩
  | _ => trivial

private theorem retiring_own (hm : RCU.Moves t sh.dom a l d' l') (hsh : ∀ o ∈ handedBy a, o ∈ sh'.handed) :
    Retiring sh' l'.pc := by
  cases hm with
  | called h =>
    cases a with
    | enter | exit =>
      cases h
      unfold getThread afterThread
      split
      · split <;> trivial
      · trivial
    | retire | retireEager | retireToken =>
      cases h
      exact fun o ho => hsh o (by simpa [handedBy] using ho)
    | _ => cases h <;> trivial
  | registers => unfold afterThread; split <;> trivial
  | _ => trivial

private theorem Moves.handed_subset (h : Moves t sh b l sh' l') : sh.handed ⊆ sh'.handed := by
  cases h with
  | domain => exact List.subset_append_right _ _
  | loads | swaps => exact List.Subset.refl _

private theorem Retiring.mono {pc : Pc Tid Obj Fn} (h : Retiring sh pc) (hm : Moves t sh b l sh' l') :
    Retiring sh' pc := by
  cases pc with
  | retireLoad => exact fun o ho => hm.handed_subset (h o ho)
  | _ => trivial

private theorem handed_out_next (hg : Guarded r sh) (hm : Moves t sh b l sh' l') :
    ∀ o ∈ sh'.handed, some o ∉ sh'.ptrs := by
  intro o ho
  cases hm with
  | domain hc =>
    rcases List.mem_append.mp ho with ho | ho
    · exact hc.2 o ho
    · exact hg.handed_out o ho
  | loads => exact hg.handed_out o ho
  | swaps hnew =>
    intro hmem
    rcases List.mem_or_eq_of_mem_set hmem with hmem | hmem
    · exact hg.handed_out o ho hmem
    · exact hnew o hmem.symm ho

private theorem tagged_handed_next (hg : Guarded r sh) (hr : Retiring sh l.pc) (hm : Moves t sh b l sh' l') :
    ∀ n ∈ sh'.dom.tagged, ∀ o, n.object = some o → o ∈ sh'.handed := by
  intro n hn o ho
  cases hm with
  | domain _ hm =>
    apply List.mem_append_right
    rcases hm.tagged with ht | ⟨m, ht, -, hpc⟩
    · exact hg.tagged_handed n (ht ▸ hn) o ho
    · rcases List.mem_cons.mp (ht ▸ hn) with rfl | hn
      · rw [hpc] at hr
        exact hr o ho
      · exact hg.tagged_handed n hn o ho
  | loads | swaps => exact hg.tagged_handed n hn o ho

private theorem reading_next (hg : Guarded r sh) (he : t = r → Entering r sh.dom (sh.sections r) l.pc)
    (hm : Moves t sh b l sh' l') : Reading r sh'.dom (sh'.sections r) := by
  cases hm with
  | domain hc hm =>
    by_cases hr : t = r
    · subst hr
      simp only [Function.update_self]
      exact reading_own hg.reading (he rfl) hc.1 hm
    · simp only [Function.update_of_ne (Ne.symm hr)]
      exact hg.reading.mono hm (hm.readerEpoch_ne (Ne.symm hr))
  | @loads _ _ _ s outer o hsec hp =>
    by_cases hr : t = r
    · subst hr
      have hread := hg.reading
      rw [hsec] at hread
      simp only [Function.update_self]
      match outer with
      | [] =>
        obtain ⟨hs, hpos, hle, hth, hold⟩ := hread
        refine ⟨hs, hpos, hle, hth, fun o' ho' n hn hno => ?_⟩
        rcases List.mem_cons.mp ho' with rfl | ho'
        · exact absurd hp (hg.handed_out o' (hg.tagged_handed n hn o' hno))
        · exact hold o' ho' n hn hno
      | _ :: _ => exact hread
    · simp only [Function.update_of_ne (Ne.symm hr)]
      exact hg.reading
  | swaps => exact hg.reading

theorem guarded_next (hg : Guarded r sh) (hj : Assertion r sh t l) (hm : Moves t sh b l sh' l') :
    Guarded r sh' :=
  ⟨hg.global_pos.trans_le hm.global_le, handed_out_next hg hm, tagged_handed_next hg hj.retiring hm,
    reading_next hg hj.entering hm⟩

private theorem assertion_own (hg : Guarded r sh) (hj : Assertion r sh t l) (hm : Moves t sh b l sh' l')
    (hflat : t = r → nests (sh.sections t) b = false) : Assertion r sh' t l' := by
  have hscan (pc : Pc Tid Obj Fn) (h : Scanned r sh pc) : Scanned r sh' pc := h.mono hg hm
  cases hm with
  | domain hc hm =>
    refine ⟨retiring_own hm fun o ho => List.mem_append_left _ ho, scanned_own hg hj.scanned hm hscan rfl, ?_⟩
    rintro rfl
    simp only [Function.update_self]
    exact entering_own hg.global_pos (hflat rfl) (hj.entering rfl) hm
  | loads | swaps => exact ⟨trivial, trivial, fun _ => trivial⟩

/-- A step of one thread does not disturb the assertion of another. -/
theorem assertion_others (hg : Guarded r sh) (hj : Assertion r sh u lu) (hm : Moves t sh b l sh' l')
    (hne : u ≠ t) : Assertion r sh' u lu := by
  refine ⟨hj.retiring.mono hm, hj.scanned.mono hg hm, ?_⟩
  rintro rfl
  have he := hj.entering rfl
  cases hm with
  | domain hc hm =>
    simp only [Function.update_of_ne hne]
    exact he.mono hm
  | loads =>
    simp only [Function.update_of_ne hne]
    exact he
  | swaps => exact he

variable [DecidableEq Obj] {c c' : Config Tid (Shared Tid Obj Fn) (Local Tid Obj Fn)}

/-- The invariant of a reader that does not nest its sections, whatever the others do. -/
theorem guarded_of_reachable {ptrs : List (Option Obj)}
    (h : (client Tid Obj Fn).Reachable (FlatFor r) (start Tid Fn ptrs) c) :
    Guarded r c.shared ∧ ∀ u, Assertion r c.shared u (c.locals u) := by
  refine Program.Stable.reachable ⟨?_, ?_⟩ ?_ ?_ h
  · intro c t b sh l hflat hg hj hs
    have hm : Moves t c.shared b (c.locals t) sh l := moves_of_step hs
    exact ⟨guarded_next hg (hj t) hm, assertion_own hg (hj t) hm hflat⟩
  · intro c t b sh l _ hg hj hs u hne
    have hm : Moves t c.shared b (c.locals t) sh l := moves_of_step hs
    exact assertion_others hg (hj u) hm hne
  · exact ⟨Nat.one_pos, by simp [start], by simp [start], rfl⟩
  · exact fun _ => ⟨trivial, trivial, fun _ => trivial⟩

/-- A callback never runs on an object that a reader which does not nest still holds. -/
theorem callback_not_held {ptrs : List (Option Obj)} {b : Action Obj Fn} {f : Fn}
    (h : (client Tid Obj Fn).Reachable (FlatFor r) (start Tid Fn ptrs) c)
    (hn : (client Tid Obj Fn).next c t b = some c') (hf : RunsCallback c.shared.dom c'.shared.dom f o) :
    ¬ Holds c.shared r o := by
  obtain ⟨hg, hj⟩ := guarded_of_reachable h
  have hcust := custody_of_reachable (domain_reachable h)
  obtain ⟨sh, l, hs, rfl⟩ := Program.next_eq_some_iff.mp hn
  obtain ⟨n, hnew, -, ho⟩ := hf
  have hm : Moves t c.shared b (c.locals t) sh l := moves_of_step hs
  have hscan := (hj t).scanned
  have hplace := hcust.placed t
  intro hheld
  generalize c.locals t = l₀ at hm hscan hplace
  cases hm with
  | domain hc hm =>
    cases hm with
    | @reclaims _ safe k kept m rest fin batch hk hle =>
      obtain ⟨rfl, -⟩ := List.cons.inj hnew
      have hmem : m ∈ c.shared.dom.tagged := hcust.retired m (by rw [hplace.2]; simp)
      exact List.not_mem_nil (hscan.2 m hmem (Nat.lt_succ_of_le hle) o ho hheld)
    | _ => exact absurd hnew (List.ne_cons_self)
  | loads | swaps => exact absurd hnew (List.ne_cons_self)

/-- Safety of reclamation: in a run without nested sections no callback runs on an object
that some thread loaded in a section it is still inside. -/
theorem callback_spares_readers {ptrs : List (Option Obj)} {b : Action Obj Fn} {f : Fn}
    (h : (client Tid Obj Fn).Reachable Flat (start Tid Fn ptrs) c)
    (hn : (client Tid Obj Fn).next c t b = some c') (hf : RunsCallback c.shared.dom c'.shared.dom f o) :
    ∀ u, ¬ Holds c.shared u o := by
  intro u
  exact callback_not_held (h.mono fun _ _ _ hflat _ => hflat) hn hf

private def firstEnter (t : Bool) : List (Bool × Action Nat Unit) :=
  [(t, .domain .enter), (t, .domain (.run true)), (t, .domain (.run true)), (t, .domain (.run true))]

/-- The writer takes object 7 out, retires it and starts an eager advancement. -/
private def retireAndAdvance : List (Bool × Action Nat Unit) :=
  [(false, .swap 0 none), (false, .domain (.retireEager (some 7) (some ()))), (false, .domain (.run true)),
    (false, .domain (.run true)), (false, .domain .synchronizeEager), (false, .domain (.run true)),
    (false, .domain (.run true)), (false, .domain (.run true))]

private def exitSection (t : Bool) : List (Bool × Action Nat Unit) :=
  [(t, .domain .exit), (t, .domain (.run true))]

/-- The scan passes over the reader, and the collection is about to call back. -/
private def passAndCollect : List (Bool × Action Nat Unit) := List.replicate 4 (false, .domain (.run true))

/-- The reader leaves while the writer waits for it, and the callback runs. -/
theorem callback_spares_readers_after_exit : ∃ c c' : Config Bool (Shared Bool Nat Unit) (Local Bool Nat Unit),
    RunsCallback c.shared.dom c'.shared.dom () 7 ∧ ∀ u, ¬ Holds c.shared u 7 := by
  have hrun : (((client Bool Nat Unit).exec Flat (start Bool Unit [some 7])
      (firstEnter true ++ (true, .load 0) :: retireAndAdvance ++ exitSection true ++ passAndCollect)).bind fun c =>
        ((client Bool Nat Unit).next c false (.domain (.run true))).map fun c' =>
          (c.shared.dom.reclaimed, c'.shared.dom.reclaimed)) = some ([], [⟨some 7, 1, some (), .eager⟩]) := by
    decide
  obtain ⟨c, hc, hb⟩ := Option.bind_eq_some_iff.mp hrun
  obtain ⟨c', hn, he⟩ := Option.map_eq_some_iff.mp hb
  obtain ⟨he, he'⟩ := Prod.mk.inj he
  have hf : RunsCallback c.shared.dom c'.shared.dom () 7 := ⟨_, by rw [he, he'], rfl, rfl⟩
  exact ⟨c, c', hf, callback_spares_readers (.of_exec .init hc) hn hf⟩

/-- From its outermost `enter` to the matching `exit` the thread's epoch word is set, and
is no later than the epoch the outermost section stored. -/
def Protected (sh : Shared Tid Obj Fn) (t : Tid) : Prop :=
  ∀ s, (sh.sections t).getLast? = some s →
    sh.dom.readerEpoch t ≠ 0 ∧ sh.dom.readerEpoch t ≤ s.epoch

omit [DecidableEq Tid] [DecidableEq Obj] in
theorem Protected.readerEpoch_ne {sh : Shared Tid Obj Fn} (h : Protected sh t) (hin : sh.sections t ≠ []) :
    sh.dom.readerEpoch t ≠ 0 :=
  (h _ (List.getLast?_eq_some_getLast hin)).1

omit [DecidableEq Tid] [DecidableEq Obj] in
private theorem Guarded.protected {sh : Shared Tid Obj Fn} (h : Guarded r sh) : Protected sh r := by
  intro s hs
  have hr := h.reading
  match hsec : sh.sections r with
  | [] => simp [hsec] at hs
  | [s'] =>
    rw [hsec] at hr hs
    obtain rfl : s' = s := by simpa using hs
    obtain ⟨he, hpos, -⟩ := hr
    omega
  | _ :: _ :: _ => simp [hsec, Reading] at hr

/-- A thread that opens its sections one at a time is protected in each of them, and what
it loaded there is not reclaimed before the section ends. -/
theorem unnested_section_is_protected {ptrs : List (Option Obj)}
    (h : (client Tid Obj Fn).Reachable (FlatFor r) (start Tid Fn ptrs) c) :
    Protected c.shared r ∧ ∀ t b c' f o, (client Tid Obj Fn).next c t b = some c' →
      RunsCallback c.shared.dom c'.shared.dom f o → ¬ Holds c.shared r o :=
  ⟨(guarded_of_reachable h).1.protected, fun _ _ _ _ _ hn hf => callback_not_held h hn hf⟩

/-- While the writer waits, the reader's epoch word still guards its only section. -/
theorem unnested_section_is_protected_waiting :
    ∃ c : Config Bool (Shared Bool Nat Unit) (Local Bool Nat Unit),
      c.shared.dom.epoch.global = 2 ∧ Holds c.shared true 7 ∧ Protected c.shared true := by
  have hrun : (((client Bool Nat Unit).exec (FlatFor true) (start Bool Unit [some 7])
      (firstEnter true ++ (true, .load 0) :: retireAndAdvance)).map fun c =>
        (c.shared.dom.epoch.global, c.shared.sections true)) = some (2, [⟨1, [7]⟩]) := by
    decide
  obtain ⟨c, hc, he⟩ := Option.map_eq_some_iff.mp hrun
  obtain ⟨hg, hs⟩ := Prod.mk.inj he
  exact ⟨c, hg, ⟨_, hs ▸ List.mem_cons_self, List.mem_cons_self⟩,
    (unnested_section_is_protected (.of_exec .init hc)).1⟩

omit [DecidableEq Obj] in
/-- Every other thread may nest: the inner `exit` is what takes the protection away. -/
theorem inner_exit_unprotects {sh sh' : Shared Tid Obj Fn} {b : Action Obj Fn} {s outer : Section Obj}
    {more : List (Section Obj)} (hm : Moves t sh b l sh' l') (hpc : l.pc = .exitStore)
    (hin : sh.sections t = s :: outer :: more) : ¬ Protected sh' t := by
  intro hp
  cases hm with
  | domain hc hm =>
    cases hm with
    | leaves =>
      refine hp.readerEpoch_ne (fun hnil => ?_) (Function.update_self ..)
      have hafter := (Function.update_self ..).symm.trans hnil
      simp [sectionsAfter, hin] at hafter
    | _ => cases hpc
  | loads | swaps => cases hpc

private def enterAgain (t : Bool) : List (Bool × Action Nat Unit) :=
  [(t, .domain .enter), (t, .domain (.run true)), (t, .domain (.run true))]

/-- A balanced inner section inside the section that loaded object 7: the callback runs
while the outer section is still open. -/
theorem nested_section_loses_protection : ∃ c c' : Config Bool (Shared Bool Nat Unit) (Local Bool Nat Unit),
    (client Bool Nat Unit).Reachable Program.anyStep (start Bool Unit [some 7]) c ∧
      (∃ b, (client Bool Nat Unit).next c false b = some c') ∧
      ¬ Protected c.shared true ∧ RunsCallback c.shared.dom c'.shared.dom () 7 ∧
      (c.shared.sections true).getLast? = some ⟨1, [7]⟩ := by
  have hrun : (((client Bool Nat Unit).exec Program.anyStep (start Bool Unit [some 7])
      (firstEnter true ++ (true, .load 0) :: enterAgain true ++ exitSection true ++ retireAndAdvance ++
        passAndCollect)).bind fun c => ((client Bool Nat Unit).next c false (.domain (.run true))).map fun c' =>
          (c.shared.dom.reclaimed, c'.shared.dom.reclaimed, c.shared.sections true, c.shared.dom.readerEpoch true)) =
      some ([], [⟨some 7, 1, some (), .eager⟩], [⟨1, [7]⟩], 0) := by
    decide
  obtain ⟨c, hc, hb⟩ := Option.bind_eq_some_iff.mp hrun
  obtain ⟨c', hn, he⟩ := Option.map_eq_some_iff.mp hb
  simp only [Prod.mk.injEq] at he
  obtain ⟨he, he', hs, hz⟩ := he
  have hlast : (c.shared.sections true).getLast? = some ⟨1, [7]⟩ := by rw [hs]; rfl
  exact ⟨c, c', .of_exec .init hc, ⟨_, hn⟩, fun hp => (hp _ hlast).1 hz, ⟨_, by rw [he, he'], rfl, rfl⟩, hlast⟩

end Abix.RCU.Client
