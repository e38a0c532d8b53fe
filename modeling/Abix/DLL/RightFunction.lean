import Abix.DLL.Serving

/-! Which function a handle calls. The fast path trusts the address in `_verified_image` and
compares no name, so it is right as long as what lies at that address bears the name. -/
namespace Abix.DLL.Function
open Abix.Concurrency Abix.Runtime
variable {Tid Addr : Type} [DecidableEq Tid] [DecidableEq Addr] {h : Handle} {t u : Tid} {a : Action Addr}
  {sh sh' : Shared Tid Addr} {l l' : Local Addr} {c : Config Tid (Shared Tid Addr) (Local Addr)} {x y : Addr}

/-- If the image's entry at the handle's index passes the test of the fast path, it has the name. -/
def Handle.Names (h : Handle) (img : Image) : Prop :=
  ∀ tbl ∈ img.exportTable, ∀ e ∈ h.entry tbl, h.Fast e → e.name = h.name

instance (h : Handle) (img : Image) : Decidable (h.Names img) :=
  inferInstanceAs (Decidable (∀ tbl ∈ img.exportTable, ∀ e ∈ h.entry tbl, h.Fast e → e.name = h.name))

/-- The condition on a step. No image is freed under a section that holds it. An image published at the
remembered address bears the name, and so does an image in use when the slow path remembers its address. -/
structure Unmistakable (h : Handle) (c : Config Tid (Shared Tid Addr) (Local Addr)) (t : Tid) (a : Action Addr) : Prop where
  sparing : Spares c.shared a
  publishing : ∀ x ∈ publishing a, c.shared.verifiedImage = some x → ∀ img ∈ c.shared.heap x, h.Names img
  storing : ∀ x ∈ storing a (c.locals t).pc, InUse c x → ∀ img ∈ c.shared.heap x, h.Names img

instance [Fintype Tid] (h : Handle) (c : Config Tid (Shared Tid Addr) (Local Addr)) (t : Tid) (a : Action Addr) :
    Decidable (Unmistakable h c t a) :=
  decidable_of_iff (_ ∧ _ ∧ _) ⟨fun ⟨hf, hp, hs⟩ => ⟨hf, hp, hs⟩, fun h => ⟨h.sparing, h.publishing, h.storing⟩⟩

/-- `fn` is the pointer of an entry of the image, and the entry has the handle's name and signature. -/
def Exports (h : Handle) (sh : Shared Tid Addr) (x : Addr) (fn : UInt64) : Prop :=
  ∃ img tbl e, sh.heap x = some img ∧ img.exportTable = some tbl ∧ h.entry tbl = some e ∧ e.fnptr = fn ∧
    e.name = h.name ∧ e.sig = h.sig

/-- The thread may invoke `fn`: an image that was current during its open section exports it. -/
def MayInvoke (h : Handle) (sh : Shared Tid Addr) (t : Tid) (fn : UInt64) : Prop :=
  sh.reading t = true ∧ ∃ x ∈ sh.seen t, Exports h sh x fn

omit [DecidableEq Tid] [DecidableEq Addr] in
private theorem Unmistakable.vouches (hok : Unmistakable h c t a) : Vouches (fun e => e.name = h.name ∧ e.sig = h.sig) h c t a := by
  have htrusts {img : Image} (hn : h.Names img) : h.Trusts (fun e => e.name = h.name ∧ e.sig = h.sig) img :=
    fun tbl htbl e he hfast => ⟨hn tbl htbl e he hfast, hfast.2.1⟩
  constructor
  · intro x hx img himg
    exact ⟨fun _ _ _ _ hslow _ => ⟨hslow.2.2, hslow.2.1⟩, fun hver => htrusts (hok.publishing x hx hver img himg)⟩
  · intro x hx huse img himg
    exact htrusts (hok.storing x hx huse img himg)

/-- While no image is freed in use and no other name appears at the remembered address, every pointer that a
handle invokes is that of an entry with the handle's name and signature, in an image that was current during
the read section of the call. -/
theorem handle_calls_its_function [Fintype Tid]
    (hc : (forcedCalls Tid Addr h).Reachable (Unmistakable h) (start Tid Addr) c)
    {c' : Config Tid (Shared Tid Addr) (Local Addr)} (hn : (forcedCalls Tid Addr h).next c t a = some c') {fn : UInt64}
    (hi : (c'.locals t).invoked = fn :: (c.locals t).invoked) :
    MayInvoke h c.shared t fn := by
  have hspared := calls_of_forced (fun _ _ _ hok => hok.sparing) hc
  have hv : Vouched (fun e => e.name = h.name ∧ e.sig = h.sig) h c :=
    vouched_of_run .init vouched_start (hspared.mono fun _ _ _ hok => hok.vouches)
  obtain ⟨sh, l, hs, rfl⟩ := Program.next_eq_some_iff.mp hn
  have hs := calls_of_invokes hs (by simpa using hi)
  obtain ⟨hread, x, hx, hserves⟩ := hv.invokes (hspared.mono fun _ _ _ _ => trivial)
    (Program.next_eq_some_iff.mpr ⟨sh, l, hs, rfl⟩) hi
  exact ⟨hread, x, hx, hserves⟩

omit [DecidableEq Tid] in
/-- The fast path takes an entry of another name for its own when it has the hash and the signature. -/
theorem fastPath_misleads {img : Image} (himg : sh.heap x = some img) (hver : sh.verifiedImage = some x)
    (hn : ¬ h.Names img) : ∃ fn, fastPath h sh (some x) = some (.fastCall x fn) ∧ ¬ Exports h sh x fn := by
  simp only [Handle.Names, not_forall] at hn
  obtain ⟨tbl, htbl, e, he, hfast, hname⟩ := hn
  refine ⟨e.fnptr, ?_, ?_⟩
  · rw [Option.mem_def] at htbl he
    simp [fastPath, hver, himg, htbl, he, hfast]
  · rintro ⟨img', tbl', e', himg', htbl', he', -, hname', -⟩
    obtain rfl := Option.some.inj (himg.symm.trans himg')
    obtain rfl := Option.some.inj (htbl.symm.trans htbl')
    obtain rfl := Option.some.inj (he.symm.trans he')
    exact hname hname'

/-- The condition asks for no more than it must: once the current image is the remembered one and
has such an entry, the next call of any thread invokes the wrong function. -/
theorem next_call_misled [Fintype Tid] {img : Image} {caller : Option Path} (hcontrol : h.control = true)
    (hcur : c.shared.image = some x) (himg : c.shared.heap x = some img) (hver : c.shared.verifiedImage = some x)
    (hn : ¬ h.Names img) (hpc : (c.locals t).pc.user = some caller) :
    ∃ c₁ c₂ fn, (calls Tid Addr h).exec Program.anyStep c [(t, .call), (t, .run), (t, .run), (t, .run)] = some c₁ ∧
      (calls Tid Addr h).next c₁ t .run = some c₂ ∧ (c₂.locals t).invoked = fn :: (c₁.locals t).invoked ∧
      ¬ MayInvoke h c₁.shared t fn := by
  let sh := (c.shared.enter t).hold t (some x)
  have himg : sh.heap x = some img := himg
  obtain ⟨fn, hfast, hwrong⟩ := fastPath_misleads himg hver hn
  let l : Local Addr := { (c.locals t).push (c.shared.reading t) caller with pc := .fastCall x fn }
  let l' : Local Addr := { l.invoke fn with pc := .fastReturn }
  refine ⟨⟨sh, Function.update c.locals t l⟩, ⟨sh, Function.update c.locals t l'⟩, fn, ?_, ?_, ?_, ?_⟩
  · have henter : (c.shared.enter t).image = some x := hcur
    simp [Program.exec, Program.next, calls, Spares, step, run, begin, hpc, hcontrol, henter, hfast, sh, l]
  · simp [Program.next, calls, Spares, step, run, l, l']
  · simp [l', Local.invoke, Local.report]
  · rintro ⟨-, y, hy, hexp⟩
    simp only [sh, Shared.hold, Shared.enter, Function.update_self, hcur, Option.toList_some, List.mem_singleton] at hy
    exact hwrong (hy ▸ hexp)

/-- The image of `typy` is remembered, unloaded and freed, and another image is loaded at its address; then
the handle is called. -/
private def reuseAddress (img : Image) : List (Unit × Action Nat) :=
  loadAndCall (exporting typy 16) ++ List.replicate 12 ((), .run) ++
    [((), .exchange none), ((), .free 0)] ++ loadAndCall img ++ List.replicate 3 ((), .run)

/-- The module is unloaded, and another version of it comes to lie at the remembered address. -/
theorem handle_calls_its_function_reused : ∃ c : Config Unit (Shared Unit Nat) (Local Nat),
    c.shared.verifiedImage = some 0 ∧ c.shared.heap 0 = some (exporting typy 32) ∧
      MayInvoke typyHandle c.shared () 32 := by
  have hrun : (((forcedCalls Unit Nat typyHandle).exec (Unmistakable typyHandle) (start Unit Nat)
      (reuseAddress (exporting typy 32))).bind fun c =>
        ((forcedCalls Unit Nat typyHandle).next c () .run).map fun c' =>
          decide (c.shared.verifiedImage = some 0 ∧ c.shared.heap 0 = some (exporting typy 32) ∧
            (c'.locals ()).invoked = 32 :: (c.locals ()).invoked)) = some true := by
    decide
  obtain ⟨c, hc, hn⟩ := Option.bind_eq_some_iff.mp hrun
  obtain ⟨c', hn, hd⟩ := Option.map_eq_some_iff.mp hn
  obtain ⟨hver, himg, hi⟩ := of_decide_eq_true hd
  exact ⟨c, hver, himg, handle_calls_its_function (.of_exec .init hc) hn hi⟩

/-- A reused address and two names of one hash: the fast path calls the function of another name. -/
theorem handle_calls_another_function : ∃ c c' : Config Unit (Shared Unit Nat) (Local Nat),
    (forcedCalls Unit Nat typyHandle).Reachable Program.anyStep (start Unit Nat) c ∧
      (forcedCalls Unit Nat typyHandle).next c () .run = some c' ∧ (c'.locals ()).invoked = 32 :: (c.locals ()).invoked ∧
      ¬ MayInvoke typyHandle c.shared () 32 := by
  have hrun : (((forcedCalls Unit Nat typyHandle).exec Program.anyStep (start Unit Nat)
      (reuseAddress (exporting isgw 32))).bind fun c => ((forcedCalls Unit Nat typyHandle).next c () .run).map fun c' =>
        decide ((c'.locals ()).invoked = 32 :: (c.locals ()).invoked ∧ c.shared.seen () = [0] ∧
          c.shared.heap 0 = some (exporting isgw 32))) = some true := by
    decide
  obtain ⟨c, hc, hn⟩ := Option.bind_eq_some_iff.mp hrun
  obtain ⟨c', hn, hd⟩ := Option.map_eq_some_iff.mp hn
  obtain ⟨hi, hseen, hheap⟩ := of_decide_eq_true hd
  refine ⟨c, c', .of_exec .init hc, hn, hi, ?_⟩
  rintro ⟨-, x, hx, img, tbl, e, himg, htbl, he, -, hname, -⟩
  rw [hseen, List.mem_singleton] at hx
  subst hx
  obtain rfl := Option.some.inj (hheap.symm.trans himg)
  obtain rfl := Option.some.inj htbl
  obtain rfl := Option.some.inj he
  exact absurd hname (by decide)

end Abix.DLL.Function
