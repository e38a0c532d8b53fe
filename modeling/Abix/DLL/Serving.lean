import Abix.DLL.CallDiscipline

/-! Which entries a handle calls. Both paths of a call read the entry at the handle's index and test
it, each in its own way. `P` is what is wanted of the entry, whether the tests look at it or not: it
holds of what is called as long as it holds of the entries that the tests let through. -/
namespace Abix.DLL.Function
open Abix.Concurrency Abix.Runtime
variable {Tid Addr : Type} [DecidableEq Tid] [DecidableEq Addr] {h : Handle} {t u : Tid} {a : Action Addr}
  {sh sh' : Shared Tid Addr} {l l' : Local Addr} {c : Config Tid (Shared Tid Addr) (Local Addr)} {x y : Addr}
  {P : Entry → Prop}

/-- If the image's entry at the handle's index passes the test of the fast path, it is as wanted. -/
def Handle.Trusts (h : Handle) (P : Entry → Prop) (img : Image) : Prop :=
  ∀ tbl ∈ img.exportTable, ∀ e ∈ h.entry tbl, h.Fast e → P e

/-- If the image's entry at the handle's index passes the tests of the slow path, it is as wanted. -/
def Handle.Verifies (h : Handle) (P : Entry → Prop) (img : Image) : Prop :=
  ∀ tbl ∈ img.exportTable, ∀ e ∈ h.entry tbl, h.Slow e → e.fnptr ≠ 0 → P e

instance (h : Handle) [DecidablePred P] (img : Image) : Decidable (h.Trusts P img) :=
  inferInstanceAs (Decidable (∀ tbl ∈ img.exportTable, ∀ e ∈ h.entry tbl, h.Fast e → P e))

instance (h : Handle) [DecidablePred P] (img : Image) : Decidable (h.Verifies P img) :=
  inferInstanceAs (Decidable (∀ tbl ∈ img.exportTable, ∀ e ∈ h.entry tbl, h.Slow e → e.fnptr ≠ 0 → P e))

/-- The image is the current one, or a fast path has loaded it and is about to compare it. -/
def InUse (c : Config Tid (Shared Tid Addr) (Local Addr)) (x : Addr) : Prop :=
  c.shared.image = some x ∨ ∃ u, (c.locals u).pc = .fastCompare (some x)

instance [Fintype Tid] (c : Config Tid (Shared Tid Addr) (Local Addr)) (x : Addr) : Decidable (InUse c x) :=
  instDecidableOr

def publishing : Action Addr → Option Addr
  | .exchange new => new
  | _ => none

def storing : Action Addr → Pc Addr → Option Addr
  | .run, .slowStore v _ _ => v
  | _, _ => none

/-- The condition on a step. An image that is published is right for the slow path, and for the fast
path if its address is the remembered one; an image in use is right for the fast path when the slow
path remembers its address. -/
structure Vouches (P : Entry → Prop) (h : Handle) (c : Config Tid (Shared Tid Addr) (Local Addr)) (t : Tid)
    (a : Action Addr) : Prop where
  publishing : ∀ x ∈ publishing a, ∀ img ∈ c.shared.heap x,
    h.Verifies P img ∧ (c.shared.verifiedImage = some x → h.Trusts P img)
  storing : ∀ x ∈ storing a (c.locals t).pc, InUse c x → ∀ img ∈ c.shared.heap x, h.Trusts P img

instance [Fintype Tid] [DecidablePred P] (h : Handle) (c : Config Tid (Shared Tid Addr) (Local Addr)) (t : Tid)
    (a : Action Addr) : Decidable (Vouches P h c t a) :=
  decidable_of_iff (_ ∧ _) ⟨fun ⟨hp, hs⟩ => ⟨hp, hs⟩, fun h => ⟨h.publishing, h.storing⟩⟩

/-- `fn` is the pointer of the image's entry at the handle's index, and the entry is as wanted. -/
def Serves (P : Entry → Prop) (h : Handle) (sh : Shared Tid Addr) (x : Addr) (fn : UInt64) : Prop :=
  ∃ img tbl e, sh.heap x = some img ∧ img.exportTable = some tbl ∧ h.entry tbl = some e ∧ e.fnptr = fn ∧ P e

def Serving (P : Entry → Prop) (h : Handle) (sh : Shared Tid Addr) : Pc Addr → Prop
  | .fastCall x fn | .slowStore _ x fn | .slowCall x fn => Serves P h sh x fn
  | .slowCheck _ (some (x, tbl)) => ∃ img, sh.heap x = some img ∧ img.exportTable = some tbl ∧ h.Verifies P img
  | _ => True

omit [DecidableEq Tid] in
theorem Replaces.heap (hr : Replaces sh a sh') (hlive : (sh.heap x).isSome = true)
    (huse : sh.image = some x ∨ ∃ u, sh.held u = some x) : sh'.heap x = sh.heap x := by
  cases hr with
  | @allocates y _ hnone =>
    refine Function.update_of_ne ?_ _ _
    rintro rfl
    rw [hnone] at hlive
    cases hlive
  | exchanges | sets => rfl
  | @frees y hcur hheld =>
    refine Function.update_of_ne ?_ _ _
    rintro rfl
    exact huse.elim hcur fun ⟨u, hu⟩ => hheld u hu

theorem Moves.heap (hm : Moves h t sh l a sh' l') (hlive : (sh.heap x).isSome = true)
    (huse : sh.image = some x ∨ ∃ u, sh.held u = some x) : sh'.heap x = sh.heap x := by
  cases hm with
  | replaces hr => exact hr.heap hlive huse
  | _ => rfl

omit [DecidableEq Tid] [DecidableEq Addr] in
theorem Serving.congr {pc : Pc Addr} (hk : Serving P h sh pc) (heq : ∀ x, pc.image = some x → sh'.heap x = sh.heap x) :
    Serving P h sh' pc := by
  cases pc with
  | fastCall x fn | slowStore v x fn | slowCall x fn =>
    obtain ⟨img, tbl, e, hheap, hrest⟩ := hk
    exact ⟨img, tbl, e, (heq x rfl).trans hheap, hrest⟩
  | slowCheck v found =>
    cases found with
    | none => trivial
    | some p =>
      obtain ⟨img, hheap, htbl⟩ := hk
      exact ⟨img, (heq p.1 rfl).trans hheap, htbl⟩
  | _ => trivial

/-- A thread makes sure of an entry by the tests of its path, and by trusting what is remembered. -/
theorem Moves.serving (hm : Moves h t sh l a sh' l') (hk : Serving P h sh l.pc)
    (hcur : ∀ x, sh.image = some x → ∀ img ∈ sh.heap x, h.Verifies P img)
    (htrust : ∀ x, l.pc = .fastCompare (some x) → sh.verifiedImage = some x → ∀ img ∈ sh.heap x, h.Trusts P img)
    (heq : ∀ x, l.pc.image = some x → sh'.heap x = sh.heap x) : Serving P h sh' l'.pc := by
  cases hm with
  | begins =>
    unfold begin
    split <;> trivial
  | @fastHits x img tbl e hpc hver hheap htbl he hfast =>
    exact ⟨img, tbl, e, hheap, htbl, he, rfl, htrust x hpc hver img hheap tbl htbl e he hfast⟩
  | @findsTableless r => cases r <;> trivial
  | @findsTable r x img tbl _ himage hheap htbl =>
    cases r with
    | slowPath => exact ⟨img, hheap, htbl, hcur x himage img hheap⟩
    | user => trivial
  | @verifies v x tbl e hpc he hslow hfn =>
    rw [hpc] at hk
    obtain ⟨img, hheap, htbl, hright⟩ := hk
    exact ⟨img, tbl, e, hheap, htbl, he, rfl, hright tbl htbl e he hslow hfn⟩
  | stores hpc =>
    rw [hpc] at hk
    exact hk
  | @resumes d path => cases path <;> trivial
  | replaces => exact hk.congr heq
  | _ => trivial

def Witnessed (sh : Shared Tid Addr) (t : Tid) (l : Local Addr) : Prop :=
  (sh.reading t = true → ∀ x, sh.image = some x → x ∈ sh.seen t) ∧ ∀ x, l.pc.image = some x → x ∈ sh.seen t

omit [DecidableEq Tid] in
theorem Replaces.witnessed (hr : Replaces sh a sh') (hw : Witnessed sh u l) : Witnessed sh' u l := by
  cases hr with
  | @exchanges new =>
    refine ⟨fun _ x hx => ?_, fun x hx => List.mem_append_right _ (hw.2 x hx)⟩
    exact List.mem_append_left _ (by simpa using hx)
  | allocates | sets | frees => exact hw

theorem Moves.witnessed (hm : Moves h t sh l a sh' l') (hk : Keeps (sh.reading t) l) (hw : Witnessed sh t l) :
    Witnessed sh' t l' := by
  unfold Keeps at hk
  cases hm with
  | begins | resumes => exact ⟨hw.1, fun x hx => by simp at hx⟩
  | fastEnters | readEnters =>
    refine ⟨fun _ x hx => ?_, fun x hx => nomatch hx⟩
    have hx : sh.image = some x := hx
    simp [Shared.enter, hx]
  | leaves | fastReturns | fastExits | bails | bailsUser | fails | slowReturns =>
    exact ⟨fun hr => absurd (exit_reading_self.symm.trans hr) (by decide), fun x hx => nomatch hx⟩
  | fastLoads hpc =>
    rw [hpc] at hk
    exact ⟨hw.1, fun x hx => hw.1 hk.2.2 x hx⟩
  | fastHits hpc | verifies hpc | stores hpc =>
    refine ⟨hw.1, fun x hx => hw.2 x ?_⟩
    rw [hpc]
    exact hx
  | @findsTableless r => exact ⟨hw.1, fun x hx => by cases r <;> cases hx⟩
  | @findsTable r x img tbl hpc hcur =>
    rw [hpc] at hk
    refine ⟨hw.1, fun y hy => ?_⟩
    cases r with
    | user => cases hy
    | slowPath =>
      cases hy
      exact hw.1 hk.2.2 _ hcur
  | replaces hr => exact hr.witnessed hw
  | _ => exact ⟨hw.1, fun x hx => nomatch hx⟩

private theorem Moves.witnessed_ne (hm : Moves h t sh l a sh' l') (hne : u ≠ t) {lu : Local Addr} (hw : Witnessed sh u lu) :
    Witnessed sh' u lu := by
  cases hm with
  | replaces hr => exact hr.witnessed hw
  | fastEnters | readEnters =>
    simp only [Witnessed, Shared.enter, Function.update_of_ne hne]
    exact hw
  | leaves | fastReturns | fastExits | bails | bailsUser | fails | slowReturns =>
    simp only [Witnessed, Shared.exit, Function.update_of_ne hne]
    exact hw
  | _ => exact hw

/-- The current image changes by being replaced. -/
theorem Moves.image (hm : Moves h t sh l a sh' l') :
    sh'.image = sh.image ∨ publishing a = sh'.image ∧ sh'.heap = sh.heap := by
  cases hm with
  | replaces hr =>
    cases hr with
    | exchanges => exact .inr ⟨rfl, rfl⟩
    | _ => exact .inl rfl
  | _ => exact .inl rfl

/-- An image comes into use by being published; a fast path loads what is current. -/
theorem Moves.inUse (hm : Moves h t c.shared (c.locals t) a sh l) (hx : InUse ⟨sh, Function.update c.locals t l⟩ x) :
    InUse c x ∨ publishing a = some x ∧ sh.heap = c.shared.heap := by
  have hown : sh.image = some x ∨ l.pc = .fastCompare (some x) →
      InUse c x ∨ publishing a = some x ∧ sh.heap = c.shared.heap := by
    intro hx
    cases hm with
    | fastLoads => exact .inl (.inl (hx.elim id fun hpc => by simpa using hpc))
    | replaces hr =>
      cases hr with
      | exchanges => exact hx.elim (fun hnew => .inr ⟨hnew, rfl⟩) fun hpc => .inl (.inr ⟨t, hpc⟩)
      | _ => exact .inl (hx.imp_right fun hpc => ⟨t, hpc⟩)
    | begins =>
      refine .inl (.inl (hx.resolve_right fun hpc => ?_))
      cases image_begin.symm.trans (congrArg Pc.image hpc)
    | resumes =>
      refine .inl (.inl (hx.resolve_right fun hpc => ?_))
      cases (Path.image_return _).symm.trans (congrArg Pc.image hpc)
    | @findsTableless r | @findsTable r =>
      refine .inl (.inl (hx.resolve_right fun hpc => ?_))
      cases r <;> cases hpc
    | _ => exact .inl (.inl (hx.resolve_right fun hpc => nomatch hpc))
  rcases hx with hx | ⟨u, hu⟩
  · exact hown (.inl hx)
  · by_cases hut : u = t
    · subst hut
      exact hown (.inr (by simpa using hu))
    · exact .inl (.inr ⟨u, by simpa [Function.update_of_ne hut] using hu⟩)

/-- The remembered address is written by the slow path alone. -/
theorem Moves.verifiedImage (hm : Moves h t sh l a sh' l') :
    sh'.verifiedImage = sh.verifiedImage ∨ sh'.verifiedImage = storing a l.pc ∧ publishing a = none := by
  cases hm with
  | stores hpc => exact .inr ⟨by rw [hpc, storing], rfl⟩
  | replaces hr => cases hr <;> exact .inl rfl
  | _ => exact .inl rfl

/-- The current image is right for the slow path, what is remembered and in use is right for the fast
path, and every thread has made sure of what it is about to call. -/
structure Vouched (P : Entry → Prop) (h : Handle) (c : Config Tid (Shared Tid Addr) (Local Addr)) : Prop where
  current : ∀ x, c.shared.image = some x → ∀ img ∈ c.shared.heap x, h.Verifies P img
  trusted : ∀ x, c.shared.verifiedImage = some x → InUse c x → ∀ img ∈ c.shared.heap x, h.Trusts P img
  serving : ∀ t, Serving P h c.shared (c.locals t).pc

omit [DecidableEq Tid] [DecidableEq Addr] in
theorem vouched_start : Vouched P h (start Tid Addr) where
  current _ hx := nomatch hx
  trusted _ hx := nomatch hx
  serving _ := trivial

private theorem vouched_next (hv : Vouched P h c) (hroot : Rooted c.shared)
    (hheld : ∀ t x, (c.locals t).pc.image = some x → c.shared.held t = some x) (hok : Vouches P h c t a)
    (hm : Moves h t c.shared (c.locals t) a sh l) : Vouched P h ⟨sh, Function.update c.locals t l⟩ := by
  have hkept (u : Tid) (x : Addr) (hx : (c.locals u).pc.image = some x) : sh.heap x = c.shared.heap x :=
    hm.heap (hroot.held u x (hheld u x hx)) (.inr ⟨u, hheld u x hx⟩)
  have hcur {x : Addr} (hx : c.shared.image = some x) : sh.heap x = c.shared.heap x :=
    hm.heap (hroot.current x hx) (.inl hx)
  have huse {x : Addr} (hx : InUse c x) : sh.heap x = c.shared.heap x := by
    rcases hx with hx | ⟨u, hu⟩
    · exact hcur hx
    · exact hkept u x (by rw [hu]; rfl)
  refine ⟨fun x hx => ?_, fun x hver hx => ?_, fun u => ?_⟩
  · have hx : sh.image = some x := hx
    rcases hm.image with hsame | ⟨hpub, hheap⟩
    · rw [hsame] at hx
      simp only [hcur hx]
      exact hv.current x hx
    · simp only [hheap]
      exact fun img himg => (hok.publishing x (hpub.trans hx) img himg).1
  · rcases hm.verifiedImage with hsame | ⟨hstore, hnone⟩
    · rw [hsame] at hver
      rcases hm.inUse hx with hx | ⟨hpub, hheap⟩
      · simp only [huse hx]
        exact hv.trusted x hver hx
      · simp only [hheap]
        exact fun img himg => (hok.publishing x hpub img himg).2 hver
    · have hx := (hm.inUse hx).resolve_right fun hpub => nomatch hnone.symm.trans hpub.1
      simp only [huse hx]
      exact hok.storing x (hstore.symm.trans hver) hx
  · by_cases hu : u = t
    · subst hu
      simp only [Function.update_self]
      exact hm.serving (hv.serving u) hv.current (fun x hpc hver => hv.trusted x hver (.inr ⟨u, hpc⟩)) (hkept u)
    · simp only [Function.update_of_ne hu]
      exact (hv.serving u).congr (hkept u)

/-- A run may go on from where the images are right. -/
theorem vouched_of_run [Fintype Tid] {c₀ : Config Tid (Shared Tid Addr) (Local Addr)}
    (hc₀ : (calls Tid Addr h).Reachable Program.anyStep (start Tid Addr) c₀) (hv : Vouched P h c₀)
    (hc : (calls Tid Addr h).Reachable (Vouches P h) c₀ c) : Vouched P h c := by
  have hroot {c : Config Tid (Shared Tid Addr) (Local Addr)} (hc : (calls Tid Addr h).Reachable (Vouches P h) c₀ c) :
      Rooted c.shared ∧ ∀ t x, (c.locals t).pc.image = some x → c.shared.held t = some x := by
    have hany : (calls Tid Addr h).Reachable Program.anyStep c₀ c := hc.mono fun _ _ _ _ => trivial
    exact rooted_of_reachable (hc₀.trans hany)
  refine (hc.assuming fun _ => hroot).invariant hv ?_
  rintro c t a c' hv ⟨⟨hroot, hheld⟩, hok⟩ hn
  obtain ⟨sh, l, hs, rfl⟩ := Program.next_eq_some_iff.mp hn
  exact vouched_next hv hroot hheld hok (moves_of_step hs)

theorem witnessed_of_reachable [Fintype Tid]
    {ok : Config Tid (Shared Tid Addr) (Local Addr) → Tid → Action Addr → Prop}
    (hc : (calls Tid Addr h).Reachable ok (start Tid Addr) c) (t : Tid) : Witnessed c.shared t (c.locals t) := by
  have hstable : (calls Tid Addr h).Stable (fun c t a => (∀ u, Keeps (c.shared.reading u) (c.locals u)) ∧ ok c t a)
      (fun _ => True) Witnessed := by
    constructor
    · intro c t a sh l hk _ hj hs
      exact ⟨trivial, (moves_of_step hs).witnessed (hk.1 t) (hj t)⟩
    · intro c t a sh l _ _ hj hs u hne
      exact (moves_of_step hs).witnessed_ne hne (hj u)
  have hstart (t : Tid) : Witnessed (start Tid Addr).shared t ((start Tid Addr).locals t) :=
    ⟨fun _ _ hx => (nomatch hx), fun _ hx => nomatch hx⟩
  exact (hstable.reachable trivial hstart (hc.assuming fun _ hc => keeps_of_reachable hc)).2 t

theorem Moves.invokes (hm : Moves h t sh l a sh' l') {fn : UInt64} (hi : l'.invoked = fn :: l.invoked) :
    ∃ x, l.pc = .fastCall x fn ∨ l.pc = .slowCall x fn := by
  cases hm with
  | fastInvokes hpc =>
    obtain ⟨rfl, -⟩ := List.cons.inj hi
    exact ⟨_, .inl hpc⟩
  | slowInvokes hpc =>
    obtain ⟨rfl, -⟩ := List.cons.inj hi
    exact ⟨_, .inr hpc⟩
  | begins =>
    unfold begin at hi
    split at hi <;> cases hi
  | asks => cases hi
  | findsTableless | findsTable | _ => exact absurd hi.symm (List.cons_ne_self _ _)

/-- What is invoked is served by an image that was current during the read section of the call. -/
theorem Vouched.invokes [Fintype Tid] (hv : Vouched P h c)
    (hc : (calls Tid Addr h).Reachable Program.anyStep (start Tid Addr) c)
    {c' : Config Tid (Shared Tid Addr) (Local Addr)} (hn : (calls Tid Addr h).next c t a = some c') {fn : UInt64}
    (hi : (c'.locals t).invoked = fn :: (c.locals t).invoked) :
    c.shared.reading t = true ∧ ∃ x ∈ c.shared.seen t, Serves P h c.shared x fn := by
  obtain ⟨sh, l, hs, rfl⟩ := Program.next_eq_some_iff.mp hn
  simp only [Function.update_self] at hi
  obtain ⟨x, hpc⟩ := (moves_of_step hs).invokes hi
  have hk := keeps_of_reachable hc t
  have hseen := (witnessed_of_reachable hc t).2 x
  have hserves := hv.serving t
  rw [Keeps] at hk
  rcases hpc with hpc | hpc <;> rw [hpc] at hk hseen hserves <;> exact ⟨hk.2.2, x, hseen rfl, hserves⟩

end Abix.DLL.Function
