import Abix.DLL.Pairing
import Abix.RCU.Taken
import Abix.Concurrency.Observed

/-! Why `retire_image` waits for the eager class before it retires the image, and where that is not
enough: the wait of `synchronize_eager` collects nothing while another thread owns the advancement, and
under a timeout the index is retired with no wait of its own. -/
namespace Abix.DLL
open Abix.Concurrency Abix.RCU
variable {Tid Obj Ext : Type} [DecidableEq Tid] [DecidableEq Obj] {t u : Tid} {i : Nat} {a : Action Obj Ext}
  {exposed exposed' : List Nat} {n : RetiredNode (Resource Ext) Reclaim}
  {d d' : Config Tid (RCU.Shared Tid (Resource Ext) Reclaim) (RCU.Local Tid (Resource Ext) Reclaim)}
  {c : Config Tid (Shared Tid Obj Ext) (Local Tid Obj Ext)} {l : Local Tid Obj Ext} {sh : Shared Tid Obj Ext}
  {made : Obj → Bool}

/-- The class that a collection sweeps first: it skips those whose watermark is there already. -/
def firstSwept (e : Epoch) (safe : Nat) (todo : List ReclaimClass) : Option ReclaimClass :=
  todo.find? fun k => e.completedOf k < safe

/-- The step begins an eager sweep that has the index of the image ahead. -/
def Rescues (d : Config Tid (RCU.Shared Tid (Resource Ext) Reclaim) (RCU.Local Tid (Resource Ext) Reclaim))
    (t : Tid) (i : Nat) : Prop :=
  ∃ x ∈ collecting (d.locals t).pc, x.1 = .eager ∧ d.shared.epoch.completedEager < x.2 ∧
    (∀ u, ∀ n ∈ (d.locals u).batch, ¬ Part.index.names i n) ∧
      ∀ n ∈ d.shared.retired, Part.index.names i n → n.epoch ≤ x.2

instance [Fintype Tid] (d : Config Tid (RCU.Shared Tid (Resource Ext) Reclaim) (RCU.Local Tid (Resource Ext) Reclaim))
    (t : Tid) (i : Nat) : Decidable (Rescues d t i) :=
  inferInstanceAs (Decidable (∃ x ∈ collecting (d.locals t).pc, _ ∧ _ ∧ (∀ u, ∀ n ∈ (d.locals u).batch, _) ∧ _))

/-- The image that a step of `retire_image` exposes: under a timeout when its index is queued, and else
when `synchronize_eager` finds another thread's advancement under way and the index not collected. -/
def exposes [Fintype Tid] (c : Config Tid (Shared Tid Obj Ext) (Local Tid Obj Ext)) (t : Tid) (a : Action Obj Ext) :
    Option Nat :=
  match (c.locals t).frame, (c.locals t).dom.pc, a with
  | .retire _ i true .image _, .retireQueue _, .run true => some i
  | .retire _ i false .image _, .synchronizeLock _, _ =>
    if c.shared.dom.epoch.sync ≠ 0 ∧ ¬ IndexDone (domainOf c) i then some i else none
  | _, _, _ => none

def exposure [Fintype Tid] (c : Config Tid (Shared Tid Obj Ext) (Local Tid Obj Ext)) (t : Tid) (a : Action Obj Ext)
    (exposed : List Nat) : List Nat :=
  (exposes c t a).toList ++ exposed.filter fun i => ¬ Rescues (domainOf c) t i

/-- The collection that a thread is about to take the lock for: its epoch and its classes. -/
def locking : Pc Tid (Resource Ext) Reclaim → Option (Nat × List ReclaimClass)
  | .collectLock safe fin => some (safe, fin.todo)
  | _ => none

/-- The condition on a step: a collection that takes the lock does not sweep the batched class first while
an exposed image lies at or below its epoch. -/
def EagerFirst (exposed : List Nat) (c : Config Tid (Shared Tid Obj Ext) (Local Tid Obj Ext)) (t : Tid)
    (_ : Action Obj Ext) : Prop :=
  ∀ x ∈ locking (c.locals t).dom.pc, firstSwept c.shared.dom.epoch x.1 x.2 = some .batched →
    ∀ n ∈ c.shared.dom.retired, n.epoch ≤ x.1 → ∀ i ∈ imageOf n.object, i ∉ exposed

instance (exposed : List Nat) (c : Config Tid (Shared Tid Obj Ext) (Local Tid Obj Ext)) (t : Tid) (a : Action Obj Ext) :
    Decidable (EagerFirst exposed c t a) :=
  inferInstanceAs (Decidable (∀ x ∈ locking (c.locals t).dom.pc, _))

/-- The image is exposed, or no collection has its index ahead. -/
def Minded (exposed : List Nat)
    (d : Config Tid (RCU.Shared Tid (Resource Ext) Reclaim) (RCU.Local Tid (Resource Ext) Reclaim)) (i : Nat) : Prop :=
  i ∈ exposed ∨ Taken d (Part.index.names i) .eager

/-- Where the eager wait of `retire_image` stands, and what it has seen to. -/
def Sheltered (exposed : List Nat)
    (d : Config Tid (RCU.Shared Tid (Resource Ext) Reclaim) (RCU.Local Tid (Resource Ext) Reclaim)) (i : Nat) :
    Pc Tid (Resource Ext) Reclaim → Prop
  | .synchronizeLock eager => eager = true
  | .advanceStore g old | .readersHead g old | .readersPassed g old _ =>
    g.finish = (Grace.synchronize true).finish ∧ Covered d (Part.index.names i) .eager old
  | .collectLock safe fin | .collect safe fin =>
    (fin.todo = [.eager] ∧ Covered d (Part.index.names i) .eager safe) ∨ (fin.todo = [] ∧ Minded exposed d i)
  | .sweep _ _ _ _ fin => fin.todo = [] ∧ Minded exposed d i
  | .synchronizeSpin | .idle _ => Minded exposed d i
  | _ => False

def Shielded (exposed : List Nat)
    (d : Config Tid (RCU.Shared Tid (Resource Ext) Reclaim) (RCU.Local Tid (Resource Ext) Reclaim))
    (pc : Pc Tid (Resource Ext) Reclaim) : Frame Obj → Prop
  | .retire _ _ bounded .sync _ => bounded = false
  | .retire _ i bounded .image _ =>
    (bounded = true → inFlight pc = none → Minded exposed d i) ∧ (bounded = false → Sheltered exposed d i pc)
  | .retire _ i _ .wait _ => inFlight pc ≠ none → Minded exposed d i
  | _ => True

/-- The images at or below the epoch have no index ahead of any collection. -/
def Clean (d : Config Tid (RCU.Shared Tid (Resource Ext) Reclaim) (RCU.Local Tid (Resource Ext) Reclaim))
    (safe : Nat) : Prop :=
  ∀ n ∈ d.shared.retired, n.epoch ≤ safe → ∀ i, Part.image.names i n → Taken d (Part.index.names i) .eager

def Clears (d : Config Tid (RCU.Shared Tid (Resource Ext) Reclaim) (RCU.Local Tid (Resource Ext) Reclaim)) :
    Pc Tid (Resource Ext) Reclaim → Prop
  | .collect safe fin => firstSwept d.shared.epoch safe fin.todo = some .batched → Clean d safe
  | .sweep safe _ _ _ _ => Clean d safe
  | _ => True

/-- The invariant: no image that is queued or about to be has an index ahead of a collection, unless it is
exposed. -/
structure Attended (c : Config Tid (Shared Tid Obj Ext) (Local Tid Obj Ext)) (exposed : List Nat) : Prop where
  shielded : ∀ t, Shielded exposed (domainOf c) (c.locals t).dom.pc (c.locals t).frame
  queued : ∀ n, Waiting (domainOf c) n → ∀ i, Part.image.names i n → Minded exposed (domainOf c) i
  clears : ∀ t, Clears (domainOf c) (c.locals t).dom.pc

section Domain
variable {b : RCU.Action (Resource Ext) Reclaim} {sd : RCU.Shared Tid (Resource Ext) Reclaim}
  {ld : RCU.Local Tid (Resource Ext) Reclaim}

omit [DecidableEq Tid] [DecidableEq Obj] in
private theorem mem_collecting {pc : Pc Tid (Resource Ext) Reclaim} {k : ReclaimClass} {safe : Nat}
    (h : (k, safe) ∈ collecting pc) : ∃ todo clear r, pc = .collect safe ⟨k :: todo, clear, r⟩ := by
  unfold collecting at h
  split at h
  · cases h
    exact ⟨_, _, _, rfl⟩
  · cases h

omit [DecidableEq Obj] in
/-- The sweep that rescues an image begins with this step. -/
theorem taken_of_rescues (h : Rescues d t i) (hm : RCU.Moves t d.shared b (d.locals t) sd ld)
    (hclass : ∀ n, Waiting d n → Part.index.names i n → n.cls = .eager) :
    Taken ⟨sd, Function.update d.locals t ld⟩ (Part.index.names i) .eager := by
  obtain ⟨⟨k, safe⟩, hx, rfl, hlt, hbatch, hretired⟩ := h
  obtain ⟨todo, clear, r, hpc⟩ := mem_collecting hx
  obtain ⟨fin, hl'⟩ : ∃ fin, ld = ⟨.sweep safe .eager [] d.shared.retired fin, (d.locals t).batch⟩ := by
    generalize d.locals t = l at hm hpc
    cases hm with
    | completes =>
      cases hpc
      exact ⟨_, rfl⟩
    | skips hle =>
      cases hpc
      exact absurd hle (Nat.not_le.mpr hlt)
    | _ => cases hpc
  exact sweeping_begins hl' hbatch fun n hn hi => ⟨hclass n (.inl hn) hi, hretired n hn hi⟩

omit [DecidableEq Obj] in
private theorem minded_next (h : Minded exposed d i) (hm : RCU.Moves t d.shared b (d.locals t) sd ld)
    (hp : Placed d.shared t (d.locals t).pc) (hq : ∀ n ∈ queueing b (d.locals t).pc, ¬ Part.index.names i n)
    (hclass : ∀ n, Waiting d n → Part.index.names i n → n.cls = .eager)
    (hkept : i ∈ exposed → i ∈ exposed' ∨ Rescues d t i) : Minded exposed' ⟨sd, Function.update d.locals t ld⟩ i := by
  rcases h with hi | htaken
  · exact (hkept hi).imp_right fun hr => taken_of_rescues hr hm hclass
  · exact .inr (taken_next htaken hm hp hq)

omit [DecidableEq Obj] in
/-- What `synchronize_eager` sees to when it owns the advancement: the batch is published with it. -/
private theorem covered_begins {e : Bool} {batch : List (RetiredNode (Resource Ext) Reclaim)}
    (hlocal : d.locals t = ⟨.synchronizeLock e, batch⟩) (hretired : sd.retired = batch ++ d.shared.retired)
    (hmark : sd.epoch.completedEager = d.shared.epoch.completedEager) (hld : ld.batch = [])
    (honly : ∀ u, u ≠ t → ∀ n ∈ (d.locals u).batch, ¬ Part.index.names i n)
    (hold : ∀ n, Waiting d n → Part.index.names i n → n.cls = .eager ∧ n.epoch ≤ d.shared.epoch.global)
    (hbehind : d.shared.epoch.completedEager < d.shared.epoch.global) :
    Covered ⟨sd, Function.update d.locals t ld⟩ (Part.index.names i) .eager d.shared.epoch.global := by
  refine ⟨fun u n hn => ?_, fun n hn hi => hold n ?_ hi, .inl (hmark.trans_lt hbehind)⟩
  · by_cases hu : u = t
    · simp only [hu, Function.update_self, hld] at hn
      exact absurd hn List.not_mem_nil
    · simp only [Function.update_of_ne hu] at hn
      exact honly u hu n hn
  · change n ∈ sd.retired at hn
    rw [hretired] at hn
    rcases List.mem_append.mp hn with hn | hn
    · exact .inr ⟨t, by rw [hlocal]; exact hn⟩
    · exact .inl hn

omit [DecidableEq Obj] in
/-- The eager wait of `retire_image` leaves the index of its image taken, or the image exposed. -/
theorem sheltered_next {x : Bool} (h : Sheltered exposed d i (d.locals t).pc)
    (hm : RCU.Moves t d.shared (.run x) (d.locals t) sd ld)
    (hmind : Minded exposed d i → Minded exposed' ⟨sd, Function.update d.locals t ld⟩ i)
    (hcov : ∀ old, Covered d (Part.index.names i) .eager old →
      Covered ⟨sd, Function.update d.locals t ld⟩ (Part.index.names i) .eager old)
    (hcontended : ∀ e, (d.locals t).pc = .synchronizeLock e → d.shared.epoch.sync ≠ 0 →
      Minded exposed' ⟨sd, Function.update d.locals t ld⟩ i)
    (honly : ∀ u, u ≠ t → ∀ n ∈ (d.locals u).batch, ¬ Part.index.names i n)
    (hold : ∀ n, Waiting d n → Part.index.names i n → n.cls = .eager ∧ n.epoch ≤ d.shared.epoch.global)
    (hbehind : d.shared.epoch.completedEager < d.shared.epoch.global) :
    Sheltered exposed' ⟨sd, Function.update d.locals t ld⟩ i ld.pc := by
  generalize hl : d.locals t = l at h hm hcontended
  cases hm with
  | called hs => cases hs
  | contended _ hs => exact hcontended _ rfl hs
  | deferred => cases h
  | begins =>
    obtain rfl : _ = true := h
    exact ⟨rfl, covered_begins hl rfl rfl rfl honly hold hbehind⟩
  | released => exact hmind h
  | advances | readersHead | passes => exact ⟨h.1, hcov _ h.2⟩
  | passed => exact .inl ⟨congrArg Finish.todo h.1, hcov _ h.2⟩
  | rescans _ _ hg => exact ⟨hg.trans h.1, hcov _ h.2⟩
  | givesUp => cases h.1
  | collectLock => exact h.imp (And.imp_right (hcov _)) (And.imp_right hmind)
  | finishes =>
    rcases h with ⟨htodo, -⟩ | ⟨-, hm⟩
    · cases htodo
    · exact hmind hm
  | skips hle =>
    rcases h with ⟨htodo, hc⟩ | ⟨htodo, -⟩
    · cases htodo
      exact .inr ⟨rfl, .inr ((hcov _ hc).taken hle)⟩
    · cases htodo
  | completes =>
    rcases h with ⟨htodo, hc⟩ | ⟨htodo, -⟩
    · cases htodo
      exact ⟨rfl, .inr ((hcov _ hc).taken (le_refl _))⟩
    · cases htodo
  | swept => exact .inr ⟨h.1, hmind h.2⟩
  | reclaims | keeps => exact ⟨h.1, hmind h.2⟩
  | _ => exact h.elim

omit [DecidableEq Obj] in
theorem clean_next {safe : Nat} (h : Clean d safe) (hr : ∀ n ∈ sd.retired, n ∈ d.shared.retired)
    (htaken : ∀ n ∈ d.shared.retired, ∀ i, Part.image.names i n → Taken d (Part.index.names i) .eager →
      Taken ⟨sd, Function.update d.locals t ld⟩ (Part.index.names i) .eager) :
    Clean ⟨sd, Function.update d.locals t ld⟩ safe :=
  fun n hn hle i hi => htaken n (hr n hn) i hi (h n (hr n hn) hle i hi)

omit [DecidableEq Tid] [DecidableEq Obj] in
private theorem clears_of_first {pc : Pc Tid (Resource Ext) Reclaim} (h : pc.First) : Clears d pc := by
  cases pc with
  | collect | sweep => exact h.elim
  | _ => trivial

omit [DecidableEq Obj] in
/-- A collection frees images whose index is taken: it has swept the eager class, or took the lock when no
image in its reach was exposed. -/
theorem clears_own (h : Clears d (d.locals t).pc) (hm : RCU.Moves t d.shared b (d.locals t) sd ld)
    (hp : Placed d.shared t (d.locals t).pc)
    (htaken : ∀ n ∈ d.shared.retired, ∀ i, Part.image.names i n → Taken d (Part.index.names i) .eager →
      Taken ⟨sd, Function.update d.locals t ld⟩ (Part.index.names i) .eager)
    (hlock : ∀ safe fin, (d.locals t).pc = .collectLock safe fin →
      firstSwept d.shared.epoch safe fin.todo = some .batched → Clean d safe)
    (hbatch : ∀ n ∈ d.shared.retired, ∀ i, Part.image.names i n → ∀ u, ∀ m ∈ (d.locals u).batch, ¬ Part.index.names i m)
    (hretired : ∀ n ∈ d.shared.retired, ∀ i, Part.image.names i n → ∀ m ∈ d.shared.retired, Part.index.names i m →
      m.cls = .eager ∧ m.epoch ≤ n.epoch) :
    Clears ⟨sd, Function.update d.locals t ld⟩ ld.pc := by
  generalize hl : d.locals t = l at h hm hp hlock
  cases hm with
  | called hs => exact clears_of_first (first_of_start hs)
  | registers => exact clears_of_first (first_afterThread _)
  | collectLock => exact fun hfirst => clean_next (hlock _ _ rfl hfirst) (fun _ hn => hn) htaken
  | skips hle =>
    refine fun hfirst => clean_next (h ?_) (fun _ hn => hn) htaken
    rw [firstSwept, List.find?_cons_of_neg (by simpa using hle)]
    exact hfirst
  | @completes _ safe k _ _ _ _ hlt =>
    cases k with
    | eager =>
      refine fun n hn hle i hi => sweeping_begins (by rw [hl]) (hbatch n hn i hi) fun m hm hname => ?_
      obtain ⟨hcls, hepoch⟩ := hretired n hn i hi m hm hname
      exact ⟨hcls, hepoch.trans hle⟩
    | batched =>
      refine clean_next (h ?_) (fun _ hn => hn) htaken
      rw [firstSwept, List.find?_cons_of_pos (by simpa using hlt)]
  | swept => exact fun _ => clean_next h (fun _ hn => hn) htaken
  | reclaims =>
    refine clean_next h (fun n hn => ?_) htaken
    rw [hp.2]
    rcases List.mem_append.mp hn with hn | hn
    · exact List.mem_append_left _ hn
    · exact List.mem_append_right _ (List.mem_cons_of_mem _ hn)
  | keeps => exact clean_next h (fun _ hn => hn) htaken
  | _ => trivial

omit [DecidableEq Obj] in
private theorem clears_others {pc : Pc Tid (Resource Ext) Reclaim} (h : Clears d pc) (hpu : Placed d.shared u pc) (hne : u ≠ t)
    (hm : RCU.Moves t d.shared b (d.locals t) sd ld) (hp : Placed d.shared t (d.locals t).pc)
    (htaken : ∀ n ∈ d.shared.retired, ∀ i, Part.image.names i n → Taken d (Part.index.names i) .eager →
      Taken ⟨sd, Function.update d.locals t ld⟩ (Part.index.names i) .eager) :
    Clears ⟨sd, Function.update d.locals t ld⟩ pc := by
  cases pc with
  | collect safe fin =>
    obtain ⟨-, he, hr, -⟩ := hm.excluded hp.locked hpu hne
    intro hfirst
    change firstSwept sd.epoch safe fin.todo = _ at hfirst
    exact clean_next (h (he ▸ hfirst)) (fun n hn => hr ▸ hn) htaken
  | sweep =>
    obtain ⟨-, -, hr, -⟩ := hm.excluded hp.locked hpu.1 hne
    exact clean_next h (fun n hn => hr ▸ hn) htaken
  | _ => trivial

omit [DecidableEq Tid] [DecidableEq Obj] in
/-- The image that a collection frees has no index ahead of it. -/
theorem imageLast_of_clears (h : Clears d (d.locals t).pc) (hp : ∀ u, Placed d.shared u (d.locals u).pc)
    (hclass : ∀ n, Waiting d n → ∀ i, Part.image.names i n → n.cls = .batched) : ImageLast d t b := by
  intro n hn i hi
  have hplaced := hp t
  generalize hpc : (d.locals t).pc = pc at h hn hplaced
  unfold sweepNext at hn
  split at hn
  · rename_i safe cls kept m rest fin
    split at hn
    · rename_i hm
      cases hn
      have hmem : n ∈ d.shared.retired := by simp [hplaced.2]
      refine indexDone_iff.mpr ((h n hmem hm.2 i hi).gone hp hplaced.1 fun safe' kept' rest' fin' hsweep => ?_)
      -- the sweep has got to a batched node, so it is not one of the eager class
      obtain ⟨-, rfl, -⟩ := Pc.sweep.inj (hpc.symm.trans hsweep)
      exact nomatch (hclass n (.inl hmem) i hi).symm.trans hm.1
    · cases hn
  · cases hn

end Domain

section Access
variable [Fintype Tid] {b : RCU.Action (Resource Ext) Reclaim} {sd : RCU.Shared Tid (Resource Ext) Reclaim}

omit [DecidableEq Tid] [Fintype Tid] [DecidableEq Obj] in
theorem Sheltered.mono {pc : Pc Tid (Resource Ext) Reclaim} (h : Sheltered exposed d i pc)
    (hmind : Minded exposed d i → Minded exposed' d' i)
    (hcov : ∀ old, Covered d (Part.index.names i) .eager old → Covered d' (Part.index.names i) .eager old) :
    Sheltered exposed' d' i pc := by
  cases pc with
  | advanceStore | readersHead | readersPassed => exact h.imp_right (hcov _)
  | collectLock | collect => exact h.imp (And.imp_right (hcov _)) (And.imp_right hmind)
  | sweep => exact h.imp_right hmind
  | synchronizeSpin | idle => exact hmind h
  | _ => exact h

omit [DecidableEq Tid] [Fintype Tid] [DecidableEq Obj] in
theorem Shielded.mono {pc : Pc Tid (Resource Ext) Reclaim} {f : Frame Obj} (h : Shielded exposed d pc f)
    (hmind : ∀ i ∈ f.owed (inFlight pc).isSome .image, Minded exposed d i → Minded exposed' d' i)
    (hcov : ∀ i ∈ f.owed (inFlight pc).isSome .image, ∀ old, Covered d (Part.index.names i) .eager old →
      Covered d' (Part.index.names i) .eager old) : Shielded exposed' d' pc f := by
  cases f with
  | retire o i bounded stage next =>
    cases stage with
    | sync => exact h
    | image =>
      have hi : i ∈ (Frame.retire o i bounded .image next).owed (inFlight pc).isSome .image :=
        Multiset.mem_singleton_self i
      exact h.imp (fun h hb hnone => hmind i hi (h hb hnone)) fun h hb => (h hb).mono (hmind i hi) (hcov i hi)
    | wait =>
      intro hfly
      refine hmind i ?_ (h hfly)
      rw [Option.isSome_iff_ne_none.mpr hfly]
      exact Multiset.mem_singleton_self i
    | _ => trivial
  | _ => trivial

omit [DecidableEq Tid] [DecidableEq Obj] in
theorem mem_exposure_of_exposes (h : exposes c t a = some i) : i ∈ exposure c t a exposed := by
  simp [exposure, h]

omit [DecidableEq Tid] [DecidableEq Obj] in
theorem mem_exposure (hi : i ∈ exposed) : i ∈ exposure c t a exposed ∨ Rescues (domainOf c) t i := by
  by_cases hr : Rescues (domainOf c) t i
  · exact .inr hr
  · exact .inl (List.mem_append_right _ (List.mem_filter.mpr ⟨hi, by simpa using hr⟩))

structure Stepped (c : Config Tid (Shared Tid Obj Ext) (Local Tid Obj Ext)) (t : Tid) (a : Action Obj Ext)
    (b : RCU.Action (Resource Ext) Reclaim) (sd : RCU.Shared Tid (Resource Ext) Reclaim) (l : Local Tid Obj Ext) : Prop where
  standing : Standing c
  paired : Paired c
  access : domainAccess (c.locals t) a = some (b, l.frame)
  moves : RCU.Moves t c.shared.dom b (c.locals t).dom sd l.dom
  behind : c.shared.dom.epoch.completedEager < c.shared.dom.epoch.global

omit [DecidableEq Obj] in
theorem Stepped.minded (h : Stepped c t a b sd l) (hq : ∀ n ∈ queueing b (c.locals t).dom.pc, ¬ Part.index.names i n)
    (hi : Minded exposed (domainOf c) i) :
    Minded (exposure c t a exposed) ⟨sd, Function.update (domainOf c).locals t l.dom⟩ i :=
  minded_next (d := domainOf c) hi h.moves (h.standing.custody.placed t) hq (fun n hn hi => h.paired.classed n hn .index i hi)
    mem_exposure

omit [DecidableEq Obj] in
theorem Stepped.covered {old : Nat} (h : Stepped c t a b sd l)
    (hq : ∀ n ∈ queueing b (c.locals t).dom.pc, ¬ Part.index.names i n)
    (hi : Covered (domainOf c) (Part.index.names i) .eager old) :
    Covered ⟨sd, Function.update (domainOf c).locals t l.dom⟩ (Part.index.names i) .eager old :=
  covered_next (c := domainOf c) hi h.moves (h.standing.custody.placed t) hq

omit [DecidableEq Obj] in
theorem Stepped.taken (h : Stepped c t a b sd l) (hq : ∀ n ∈ queueing b (c.locals t).dom.pc, ¬ Part.index.names i n)
    (hi : Taken (domainOf c) (Part.index.names i) .eager) :
    Taken ⟨sd, Function.update (domainOf c).locals t l.dom⟩ (Part.index.names i) .eager :=
  taken_next (c := domainOf c) hi h.moves (h.standing.custody.placed t) hq

omit [DecidableEq Tid] [DecidableEq Obj] [Fintype Tid] in
/-- A thread that is not about to queue a node queues none. -/
theorem queueing_eq_none {pc : Pc Tid (Resource Ext) Reclaim} (h : inFlight pc = none) :
    ∀ n ∈ queueing b pc, ¬ Part.index.names i n := by
  intro n hn
  rw [(mem_queueing hn).2] at h
  cases h

omit [DecidableEq Obj] in
private theorem Stepped.shielded_bounded {x : Bool} {o : Obj} {next : Next} (h : Stepped c t (.run x) (.run x) sd l)
    (hf : (c.locals t).frame = .retire o i true .image next)
    (hs : inFlight (c.locals t).dom.pc = none → Minded exposed (domainOf c) i) (hnone : inFlight l.dom.pc = none) :
    Minded (exposure c t (.run x) exposed) ⟨sd, Function.update (domainOf c).locals t l.dom⟩ i := by
  by_cases hfly : inFlight (c.locals t).dom.pc = none
  · exact h.minded (queueing_eq_none hfly) (hs hfly)
  · have hm := h.moves
    cases hpc : (c.locals t).dom.pc with
    | retireQueue n =>
      cases x with
      | true => exact .inl (mem_exposure_of_exposes (by simp [exposes, hf, hpc]))
      | false =>
        -- no memory for the index, so the image never has one
        have howed : i ∈ owing .index (c.locals t) := by
          rw [owing, hf, hpc]
          exact Multiset.mem_singleton_self i
        refine h.minded (fun n hn => absurd (mem_queueing hn).1 (by simp)) (.inr (.inl fun n hn => ?_))
        exact not_queued_of_owed (h.standing.once .index) howed (h.standing.accounted.queued_of_waiting hn)
    | retireLoad =>
      generalize (c.locals t).dom = m at hm hpc
      generalize l.dom = m' at hm hnone
      cases hm with
      | tags => cases hnone
      | called hs => cases hs
      | _ => cases hpc
    | _ =>
      rw [hpc] at hfly
      exact absurd rfl hfly

omit [DecidableEq Obj] in
/-- While its own node is on its way a thread queues no index. -/
theorem Stepped.queues_no_index {o : Obj} {bounded : Bool} {next : Next} (h : Stepped c t a b sd l) {j : Nat}
    (hf : (c.locals t).frame = .retire o j bounded .wait next) :
    ∀ n ∈ queueing b (c.locals t).dom.pc, ¬ Part.index.names i n := by
  intro n hn
  have hat : FlightAt (c.locals t).frame (n.object, n.reclaim, n.cls) :=
    h.standing.retiring.flight t _ (by rw [(mem_queueing hn).2, inFlight])
  rw [hf] at hat
  have hobject : n.object = some (.image j) := (Prod.mk.inj hat).1
  simp [Part.names, Part.of, hobject, indexOf]

omit [DecidableEq Obj] in
private theorem Stepped.sheltered_run {x : Bool} {o : Obj} {next : Next} (h : Stepped c t (.run x) (.run x) sd l)
    (hf : (c.locals t).frame = .retire o i false .image next)
    (hs : Sheltered exposed (domainOf c) i (c.locals t).dom.pc) :
    Sheltered (exposure c t (.run x) exposed) ⟨sd, Function.update (domainOf c).locals t l.dom⟩ i l.dom.pc := by
  have hfly : inFlight (c.locals t).dom.pc = none := by
    generalize (c.locals t).dom.pc = pc at hs
    cases pc with
    | retireLoad | retireQueue => exact hs.elim
    | _ => rfl
  have hq : ∀ n ∈ queueing (.run x) (c.locals t).dom.pc, ¬ Part.index.names i n := queueing_eq_none hfly
  have howed : i ∈ owing .image (c.locals t) := by
    rw [owing, hf]
    exact Multiset.mem_singleton_self i
  have htagged (n) (hn : Waiting (domainOf c) n) : n ∈ c.shared.dom.tagged := h.standing.custody.tagged_of_waiting hn
  refine sheltered_next (d := domainOf c) hs h.moves (h.minded hq) (fun _ => h.covered hq) (fun e hpc hsync => ?_)
    (h.paired.owed t i howed) (fun n hn hi => ⟨h.paired.classed n hn .index i hi, h.standing.tagged n (htagged n hn)⟩)
    h.behind
  by_cases hdone : IndexDone (domainOf c) i
  · exact h.minded hq (.inr (.inl (indexDone_iff.mp hdone)))
  · have hpc : (c.locals t).dom.pc = .synchronizeLock e := hpc
    have hsync : c.shared.dom.epoch.sync ≠ 0 := hsync
    exact .inl (mem_exposure_of_exposes (by simp [exposes, hf, hpc, hsync, hdone]))

omit [DecidableEq Obj] in
private theorem Stepped.shielded_run {x : Bool} (h : Stepped c t (.run x) (.run x) sd l)
    (hs : Shielded exposed (domainOf c) (c.locals t).dom.pc (c.locals t).frame) :
    Shielded (exposure c t (.run x) exposed) ⟨sd, Function.update (domainOf c).locals t l.dom⟩ l.dom.pc
      (c.locals t).frame := by
  cases hf : (c.locals t).frame with
  | retire o i bounded stage next =>
    rw [hf] at hs
    cases stage with
    | sync => exact hs
    | image =>
      refine ⟨fun hb hnone => ?_, fun hb => ?_⟩
      · subst hb
        exact h.shielded_bounded hf (hs.1 rfl) hnone
      · subst hb
        exact h.sheltered_run hf (hs.2 rfl)
    | wait =>
      intro hfly
      obtain ⟨z, hz⟩ := Option.ne_none_iff_exists'.mp hfly
      exact h.minded (h.queues_no_index hf) (hs (by rw [inFlight_run h.moves hz]; exact Option.some_ne_none z))
    | _ => trivial
  | _ => trivial

omit [DecidableEq Obj] in
private theorem Stepped.shielded_call {r : Result} {o : Obj} {bounded : Bool} {stage stage' : Stage} {next : Next}
    (h : Stepped c t a b sd l) (hpc : (c.locals t).dom.pc = .idle r)
    (hs : Shielded exposed (domainOf c) (.idle r) (.retire o i bounded stage next))
    (hcall : retireImage i bounded r stage = some (b, stage')) :
    Shielded (exposure c t a exposed) ⟨sd, Function.update (domainOf c).locals t l.dom⟩ l.dom.pc
      (.retire o i bounded stage' next) := by
  have hm := h.moves
  have hq : ∀ n ∈ queueing b (c.locals t).dom.pc, ¬ Part.index.names i n := queueing_eq_none (by rw [hpc]; rfl)
  cases stage with
  | index =>
    cases hcall
    cases bounded with
    | true =>
      refine ⟨fun _ hnone => ?_, nofun⟩
      generalize (c.locals t).dom = m at hm
      generalize l.dom = m' at hm hnone
      cases hm with
      | called hstart =>
        cases hstart
        cases hnone
    | false => exact rfl
  | sync =>
    obtain rfl : bounded = false := hs
    cases hcall
    refine ⟨nofun, fun _ => ?_⟩
    generalize (c.locals t).dom = m at hm
    generalize l.dom = m' at hm ⊢
    cases hm with
    | called hstart =>
      cases hstart
      exact rfl
  | image =>
    cases hcall
    refine fun _ => h.minded hq ?_
    cases bounded with
    | true => exact hs.1 rfl rfl
    | false => exact hs.2 rfl
  | wait | check =>
    cases hcall
    trivial
  | outcome => cases hcall

omit [DecidableEq Obj] in
private theorem Stepped.shielded_own (h : Stepped c t a b sd l)
    (hs : Shielded exposed (domainOf c) (c.locals t).dom.pc (c.locals t).frame) :
    Shielded (exposure c t a exposed) ⟨sd, Function.update (domainOf c).locals t l.dom⟩ l.dom.pc l.frame := by
  rcases domainAccess_cases h.access with ⟨v, hv, hg, -⟩ | ⟨x, rfl, hg⟩ | ⟨r, o, i, bounded, stage, stage', next, hpc,
    hold, hnew, hcall⟩
  · rw [hg, hv]
    trivial
  · obtain rfl : a = .run x := by
      rcases domainAccess_origin h.access with ⟨-, hdirect⟩ | ⟨y, rfl, hy⟩ | ⟨_, _, _, _, _, _, _, -, hcall⟩
      · cases hdirect
      · rw [RCU.Action.run.inj hy]
      · exact absurd rfl ((retireImage_ne_run hcall).1 x)
    rw [hg]
    exact h.shielded_run hs
  · rw [hpc, hold] at hs
    rw [hnew]
    exact h.shielded_call hpc hs hcall

omit [DecidableEq Obj] in
/-- Who queues the node of an image has seen to its index. -/
theorem Stepped.minded_of_queueing (h : Stepped c t a b sd l)
    (hs : Shielded exposed (domainOf c) (c.locals t).dom.pc (c.locals t).frame)
    (hn : n ∈ queueing b (c.locals t).dom.pc) (hi : Part.image.names i n) :
    Minded (exposure c t a exposed) ⟨sd, Function.update (domainOf c).locals t l.dom⟩ i := by
  have hfly : inFlight (c.locals t).dom.pc = some (n.object, n.reclaim, n.cls) := by rw [(mem_queueing hn).2, inFlight]
  have hat := h.standing.retiring.flight t _ hfly
  have hobject : n.object = some (.image i) := imageOf_eq_some.mp hi
  cases hf : (c.locals t).frame with
  | retire o j bounded stage next =>
    rw [hf] at hat hs
    cases stage with
    | wait =>
      have hj : n.object = some (.image j) := (Prod.mk.inj hat).1
      obtain rfl : j = i := Resource.image.inj (Option.some.inj (hj.symm.trans hobject))
      exact h.minded (h.queues_no_index hf) (hs (by rw [hfly]; exact Option.some_ne_none _))
    | sync | image => cases hobject.symm.trans (Prod.mk.inj hat).1
    | _ => exact hat.elim
  | idle v =>
    rw [hf] at hat
    cases hi.symm.trans hat.1
  | _ =>
    rw [hf] at hat
    exact hat.elim

omit [DecidableEq Obj] in
/-- An access of the domain that keeps the condition keeps the invariant. -/
theorem attended_access (h : Attended c exposed) (hst : Stepped c t a b sd l) (hok : EagerFirst exposed c t a) :
    Attended ⟨{ c.shared with dom := sd }, Function.update c.locals t l⟩ (exposure c t a exposed) := by
  have hd : domainOf ⟨{ c.shared with dom := sd }, Function.update c.locals t l⟩ =
      ⟨sd, Function.update (domainOf c).locals t l.dom⟩ := by simp only [domainOf, domainOf_update]
  have hplaced := hst.standing.custody.placed
  have hout {i : Nat} (hi : Elsewhere c t i) : ∀ n ∈ queueing b (c.locals t).dom.pc, ¬ Part.index.names i n :=
    fun n hn => hst.standing.queues_no_index hi hn
  have htaken : ∀ n ∈ c.shared.dom.retired, ∀ i, Part.image.names i n →
      Taken (domainOf c) (Part.index.names i) .eager →
        Taken ⟨sd, Function.update (domainOf c).locals t l.dom⟩ (Part.index.names i) .eager :=
    fun n hn i hi => hst.taken (hout (.inl ⟨n, .inl hn, hi⟩))
  refine ⟨fun u => ?_, fun n hn i hi => ?_, fun u => ?_⟩ <;> rw [hd]
  · by_cases hu : u = t
    · subst hu
      simp only [Function.update_self]
      exact hst.shielded_own (h.shielded u)
    · simp only [Function.update_of_ne hu]
      exact (h.shielded u).mono (fun i hi => hst.minded (hout (.inr ⟨u, hu, hi⟩)))
        fun i hi _ => hst.covered (hout (.inr ⟨u, hu, hi⟩))
  · rcases waiting_next hst.moves (hplaced t) hn with hn | hn
    · exact hst.minded (hout (.inl ⟨n, hn, hi⟩)) (h.queued n hn i hi)
    · exact hst.minded_of_queueing (h.shielded t) hn hi
  · by_cases hu : u = t
    · subst hu
      simp only [Function.update_self]
      refine clears_own (d := domainOf c) (h.clears u) hst.moves (hplaced u) htaken (fun safe fin hpc hfirst => ?_)
        (fun n hn i hi => hst.paired.published n hn i hi) fun n hn i hi m hm hname => ?_
      · have hpc : (c.locals u).dom.pc = .collectLock safe fin := hpc
        refine fun n hn hle i hi => (h.queued n (.inl hn) i hi).resolve_left ?_
        exact hok (safe, fin.todo) (by rw [hpc]; rfl) hfirst n hn hle i hi
      · exact ⟨hst.paired.classed m (.inl hm) .index i hname, hst.paired.epochs n m (.inl hn) (.inl hm) i hi hname⟩
    · simp only [Function.update_of_ne hu]
      exact clears_others (h.clears u) (hplaced u) hu hst.moves (hplaced t) htaken

end Access

section Runs
variable [Fintype Tid]

/-- The code of `Object` itself rescues no image, and begins `retire_image` at its start. -/
theorem attended_object {r : Result} {o : Obj} (h : Attended c exposed) (hpc : (c.locals t).dom.pc = .idle r)
    (hdom : l.dom = (c.locals t).dom) (hm : Moves c.shared r o (c.locals t).frame (sh, l.frame)) :
    Attended ⟨sh, Function.update c.locals t l⟩ (exposure c t a exposed) := by
  have hd : sh.dom = c.shared.dom := hm.hands.dom
  have hsame : domainOf ⟨sh, Function.update c.locals t l⟩ = domainOf c := by
    simp only [domainOf, domainOf_update, hdom, Function.update_eq_self, hd]
  have hlocal (u : Tid) : (Function.update c.locals t l u).dom = (c.locals u).dom :=
    congrFun (congrArg Config.locals hsame) u
  have hmind {i : Nat} (hi : Minded exposed (domainOf c) i) : Minded (exposure c t a exposed) (domainOf c) i := by
    refine hi.imp_left fun hi => (mem_exposure hi).resolve_right fun hrescues => ?_
    obtain ⟨x, hx, -⟩ := hrescues
    have hx : x ∈ collecting (c.locals t).dom.pc := hx
    rw [hpc] at hx
    cases hx
  refine ⟨fun u => ?_, fun n hn i hi => ?_, fun u => ?_⟩
  · simp only [hsame, hlocal]
    by_cases hu : u = t
    · subst hu
      rw [Function.update_self]
      rcases hm.hands.disposed with ⟨_, j, _, _, hf, -⟩ | ⟨hf, -⟩
      · rw [show l.frame = _ from hf]
        trivial
      · change l.frame.retiring = false at hf
        generalize l.frame = f at hf
        cases f with
        | retire => cases hf
        | _ => trivial
    · rw [Function.update_of_ne hu]
      exact (h.shielded u).mono (fun i _ => hmind) fun i _ _ => id
  · rw [hsame] at hn ⊢
    exact hmind (h.queued n hn i hi)
  · simp only [hsame, hlocal]
    exact h.clears u

variable [Fintype Obj]

private theorem attended_of_observed
    (h : (system Tid Obj Ext).Observed exposure EagerFirst (start Tid Ext made) [] c exposed) : Attended c exposed := by
  have hstart : Attended (start Tid Ext made : Config Tid (Shared Tid Obj Ext) (Local Tid Obj Ext)) [] :=
    ⟨fun _ => trivial, fun n hn => hn.elim (absurd · List.not_mem_nil) fun ⟨_, hn⟩ => absurd hn List.not_mem_nil,
      fun _ => trivial⟩
  refine h.invariant hstart ?_
  rintro c exposed t a c' hr hc hok hn
  obtain ⟨sh, l, hs, rfl⟩ := Program.next_eq_some_iff.mp hn
  rcases step_cases hs with ⟨b, d, hb, hd, rfl, -⟩ | ⟨r, o, -, hpc, hdom, hm, -⟩
  · have hdomain := anyDomain_of_reachable hr
    exact attended_access hc ⟨standing_of_reachable hr, paired_of_reachable hr, hb, RCU.moves_of_step hd,
      (behind_of_reachable hdomain).1 .eager⟩ hok
  · exact attended_object hc hpc hdom hm

/-- As long as no collection sweeps the batched class first over an exposed image, no callback runs on
storage that was freed: the index of an image is reclaimed before the image, and once freed the image is
not touched again. What is not exposed needs no care, because `retire_image` retires the image only after
the advancement that it owns has collected the index. -/
theorem index_reclaimed_before_image
    (h : (system Tid Obj Ext).Observed exposure EagerFirst (start Tid Ext made) [] c exposed) :
    CalledInOrder c.shared.dom.reclaimed := by
  refine calledInOrder_of_imageLast (h.reachable fun c exposed t a hobs _ b _ => ?_)
  have hr : (system Tid Obj Ext).Reachable Program.anyStep (start Tid Ext made) c :=
    hobs.reachable fun _ _ _ _ _ _ => trivial
  exact imageLast_of_clears ((attended_of_observed hobs).clears t) (standing_of_reachable hr).custody.placed
    fun n hn i hi => (paired_of_reachable hr).classed n hn .image i hi

end Runs

private def accesses (t : Bool) (k : Nat) : List (Bool × Action Unit Unit) := List.replicate k (t, .run true)

/-- One thread owns an advancement when the other one unloads, after seven deferred collections: the eager
wait of the unload collects nothing. -/
private def contendedWait : List (Bool × Action Unit Unit) :=
  (List.replicate 7 ((true, .domain .synchronize) :: accesses true 1)).flatten ++
    (true, .load () "") :: accesses true 6 ++ (false, .domain .synchronizeEager) :: accesses false 2 ++
    (true, .unload ()) :: accesses true 10 ++ accesses false 7

/-- Image 0 is exposed, another call of `synchronize_eager` rescues it, and the eighth collection frees it. -/
theorem index_reclaimed_before_image_rescued : ∃ c c' : Config Bool (Shared Bool Unit Unit) (Local Bool Unit Unit),
    (system Bool Unit Unit).Observed exposure EagerFirst (start Bool Unit fun _ => true) [] c [0] ∧
      c'.shared.dom.reclaimed.map RetiredNode.object = [some (.image 0), some (.index 0)] ∧
        CalledInOrder c'.shared.dom.reclaimed := by
  have hwait : ((system Bool Unit Unit).observe exposure EagerFirst (start Bool Unit fun _ => true) []
      contendedWait).map Prod.snd = some [0] := by
    decide
  have hrun : ((system Bool Unit Unit).observe exposure EagerFirst (start Bool Unit fun _ => true) []
      (contendedWait ++ (false, .domain .synchronizeEager) :: accesses false 9 ++ accesses true 16)).map
        (fun x => x.1.shared.dom.reclaimed.map RetiredNode.object) = some [some (.image 0), some (.index 0)] := by
    decide +kernel
  obtain ⟨⟨c, exposed⟩, hc, rfl⟩ := Option.map_eq_some_iff.mp hwait
  obtain ⟨⟨c', exposed'⟩, hc', he⟩ := Option.map_eq_some_iff.mp hrun
  exact ⟨c, c', .of_observe .init hc, he, index_reclaimed_before_image (.of_observe .init hc')⟩

/-- The same wait, and at once the eighth collection, which sees image 0 only. -/
private def contendedUnload : List (Bool × Action Unit Unit) :=
  contendedWait ++ accesses true 17 ++ (true, .domain .synchronizeEager) :: accesses true 7

/-- `reclaim_index` runs on the index of an image that `reclaim_image` has freed. -/
theorem index_reclaimed_after_image : ∃ c : Config Bool (Shared Bool Unit Unit) (Local Bool Unit Unit),
    (system Bool Unit Unit).Reachable Program.anyStep (start Bool Unit fun _ => true) c ∧
      c.shared.dom.reclaimed = [⟨some (.index 0), 2, some .reclaimIndex, .eager⟩,
        ⟨some (.image 0), 2, some .reclaimImage, .batched⟩] ∧
      ¬ CalledInOrder c.shared.dom.reclaimed := by
  have hrun : (((system Bool Unit Unit).exec Program.anyStep (start Bool Unit fun _ => true) contendedUnload).map
      fun c => c.shared.dom.reclaimed) = some [⟨some (.index 0), 2, some .reclaimIndex, .eager⟩,
        ⟨some (.image 0), 2, some .reclaimImage, .batched⟩] := by
    decide
  obtain ⟨c, hc, he⟩ := Option.map_eq_some_iff.mp hrun
  refine ⟨c, .of_exec .init hc, he, fun hord => ?_⟩
  rw [he] at hord
  exact (List.pairwise_cons.mp hord).1 _ List.mem_cons_self 0 (.inl rfl) rfl

end Abix.DLL
