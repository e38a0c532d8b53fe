import Abix.Interface.ModuleRegistry

/-! Discovery: a loaded module is asked for its manifest through the fixed entry, and what it implements
is registered. On the way the control of the load is bound to the module, so that leases can pin it. -/
namespace Abix.Interface.Discovery
open Abix.Model ModuleRegistry
variable {Ctl Handle Path Ext : Type}

/-- What a hook of a control points to: the functions of `Discovery.h`, or a loader's own. -/
inductive Hook (Ext : Type) where
  | pinModule
  | unpinModule
  | other (hook : Ext)
  deriving DecidableEq, Repr

/-- The fields of `ModuleControl` that the registry does not use; a null pointer is `none`.
`modulePath` is a pointer, and the text it points to belongs to somebody else. -/
structure Platform (Handle Path Ext : Type) where
  name : Option String := none
  moduleHandle : Option Handle := none
  modulePath : Option Path := none
  pinState : Option Handle := none
  pin : Option (Hook Ext) := none
  unpin : Option (Hook Ext) := none
  deriving DecidableEq, Repr

/-- `dll::Object`, as far as discovery asks it. `data` is where the text of its own `_path` lies. -/
structure Object (Handle Path : Type) where
  module : Option Handle
  path : String
  data : Path

/-- `module_path`: the address of the Object's own string. -/
def Object.modulePath (o : Object Handle Path) : Option Path := if o.path = "" then none else some o.data

/-- `resolve` for `abix_module_query_v1`. `exports` says which modules export that entry, and what
theirs answers. -/
def Object.query (exports : Handle → Option (Option ModuleManifest)) (o : Object Handle Path) :
    Option (Option ModuleManifest) := o.module.bind exports

structure DiscoveryResult where
  manifest : ManifestStatus := .nullManifest
  registration : ModuleStatus := .invalidManifest
  queried : Option ModuleManifest := none

def DiscoveryResult.ok (r : DiscoveryResult) : Bool := r.manifest = .ok ∧ r.registration = .ok

/-- `pin_module`: the module that it takes a reference to, and the control after it. `dlopen` opens an
object by the path that it reads at the address. -/
def pinModule (windows : Bool) (dlopen : Path → Option Handle) (p : Platform Handle Path Ext) :
    Option Handle × Platform Handle Path Ext :=
  if windows then (p.moduleHandle, p)
  else
    match p.modulePath with
    | none => (none, p)
    | some path => (dlopen path, { p with pinState := dlopen path })

/-- `unpin_module`: the module whose reference it gives back, and the control after it. -/
def unpinModule (windows : Bool) (p : Platform Handle Path Ext) : Option Handle × Platform Handle Path Ext :=
  if windows then (p.moduleHandle, p) else (p.pinState, { p with pinState := none })

def bindModulePlatform (p : Platform Handle Path Ext) (o : Object Handle Path) : Platform Handle Path Ext :=
  { p with moduleHandle := o.module, modulePath := o.modulePath, pin := some .pinModule, unpin := some .unpinModule }

structure World (Ctl Handle Path Ext : Type) where
  registry : ModuleRegistry.World Ctl := {}
  platform : Ctl → Platform Handle Path Ext := fun _ => {}

variable [DecidableEq Ctl]

def discoverModule (cap : Capacity) (exports : Handle → Option (Option ModuleManifest))
    (w : World Ctl Handle Path Ext) (o : Object Handle Path) (control : Ctl) : World Ctl Handle Path Ext × DiscoveryResult :=
  match o.query exports with
  | none => (w, { manifest := .nullManifest, registration := .invalidManifest })
  | some queried =>
    match validateManifest queried, queried with
    | .ok, some manifest =>
      let bound := { w with platform := Function.update w.platform control (bindModulePlatform (w.platform control) o) }
      let r := registerModule cap bound.registry control manifest
      ({ bound with registry := r.1 }, { manifest := .ok, registration := r.2, queried })
    | status, _ => (w, { manifest := status, registration := .invalidManifest, queried })

variable {cap : Capacity} {exports : Handle → Option (Option ModuleManifest)} {w : World Ctl Handle Path Ext}
  {o : Object Handle Path}
  {control : Ctl} {m : ModuleManifest} {status : ModuleStatus} {windows : Bool}

section Registration

theorem refusal_ne_ok (r : ModuleRegistry.World Ctl) : refusal cap r control m ≠ some .ok := by
  intro h
  unfold refusal at h
  split_ifs at h <;> cases h

theorem registerModule_of_refusal {r : ModuleRegistry.World Ctl} (h : refusal cap r control m = some status) :
    registerModule cap r control m = (r, status) := by
  rw [registerModule, h]

/-- A registration answers ok exactly when nothing speaks against it. -/
theorem registerModule_ok_iff (r : ModuleRegistry.World Ctl) :
    (registerModule cap r control m).2 = .ok ↔ refusal cap r control m = none := by
  cases h : refusal cap r control m with
  | none => simp [registerModule, h]
  | some status =>
    rw [registerModule_of_refusal h]
    exact iff_of_false (fun he => refusal_ne_ok r (h.trans (congrArg some he))) (Option.some_ne_none _)

end Registration

def Object.manifest (exports : Handle → Option (Option ModuleManifest)) (o : Object Handle Path) :
    Option ModuleManifest :=
  (o.query exports).join.filter fun m => validateManifest (some m) = .ok

/-- Without an entry, or with a manifest that is not valid, nothing has been touched. -/
theorem discoverModule_of_none (h : o.manifest exports = none) :
    (discoverModule cap exports w o control).2.ok = false ∧ (discoverModule cap exports w o control).1 = w := by
  unfold discoverModule
  split
  · exact ⟨rfl, rfl⟩
  · rename_i queried hq
    split
    · rename_i m hv
      simp [Object.manifest, hq, hv] at h
    · rename_i queried _ _ hnot
      refine ⟨?_, rfl⟩
      have hstatus : validateManifest queried ≠ .ok := by
        intro hv
        cases queried with
        | none => cases hv
        | some m => exact hnot m hv rfl
      simp [DiscoveryResult.ok, hstatus]

/-- With a valid manifest the control is bound, and then the registry is asked. -/
theorem discoverModule_of_some (h : o.manifest exports = some m) :
    discoverModule cap exports w o control =
      ({ registry := (registerModule cap w.registry control m).1
         platform := Function.update w.platform control (bindModulePlatform (w.platform control) o) },
        { manifest := .ok, registration := (registerModule cap w.registry control m).2, queried := some m }) := by
  obtain ⟨hquery, hvalid⟩ := Option.filter_eq_some_iff.mp h
  have hq : o.query exports = some (some m) := by
    cases hq : o.query exports with
    | none => simp [hq] at hquery
    | some queried => simpa [hq] using hquery
  have hv : validateManifest (some m) = .ok := of_decide_eq_true hvalid
  simp only [discoverModule, hq, hv]

/-- The control is bound to the module already, through this very Object and its string. -/
structure Bound (p : Platform Handle Path Ext) (o : Object Handle Path) : Prop where
  moduleHandle : p.moduleHandle = o.module
  modulePath : p.modulePath = o.modulePath
  pin : p.pin = some .pinModule
  unpin : p.unpin = some .unpinModule

private theorem bound_iff (p : Platform Handle Path Ext) (o : Object Handle Path) :
    Bound p o ↔ bindModulePlatform p o = p := by
  constructor
  · rintro ⟨hhandle, hpath, hpin, hunpin⟩
    rw [bindModulePlatform, ← hhandle, ← hpath, ← hpin, ← hunpin]
  · intro h
    exact ⟨congrArg Platform.moduleHandle h.symm, congrArg Platform.modulePath h.symm, congrArg Platform.pin h.symm,
      congrArg Platform.unpin h.symm⟩

/-- Nothing has changed, and the leases held on the control unpin what they would have unpinned. -/
def Unchanged (w w' : World Ctl Handle Path Ext) (control : Ctl) : Prop :=
  w' = w ∧ ∀ windows, (unpinModule windows (w'.platform control)).1 = (unpinModule windows (w.platform control)).1

omit [DecidableEq Ctl] in
private theorem unchanged_iff {w w' : World Ctl Handle Path Ext} : Unchanged w w' control ↔ w' = w :=
  ⟨And.left, fun h => ⟨h, fun _ => by rw [h]⟩⟩

/-- A discovery that fails has changed nothing exactly when it did not come to the registry, the registry
took the module, or the control was bound to it before. -/
theorem failed_discovery_changes_nothing :
    ((discoverModule cap exports w o control).2.ok = false →
        Unchanged w (discoverModule cap exports w o control).1 control) ↔
      ∀ m, o.manifest exports = some m → refusal cap w.registry control m = none ∨ Bound (w.platform control) o := by
  rw [unchanged_iff]
  cases hm : o.manifest exports with
  | none => exact iff_of_true (fun _ => (discoverModule_of_none hm).2) fun m h => nomatch h
  | some m =>
    simp only [Option.some.injEq, forall_eq']
    rw [discoverModule_of_some hm]
    cases hr : refusal cap w.registry control m with
    | none =>
      have hok := (registerModule_ok_iff w.registry).mpr hr
      exact iff_of_true (fun h => by simp [DiscoveryResult.ok, hok] at h) (.inl rfl)
    | some status =>
      have hstatus : status ≠ .ok := fun h => refusal_ne_ok w.registry (h ▸ hr)
      rw [registerModule_of_refusal hr, bound_iff]
      have hfail : ({ manifest := .ok, registration := status, queried := some m : DiscoveryResult }).ok = false := by
        simp [DiscoveryResult.ok, hstatus]
      simp only [hfail, true_implies, reduceCtorEq, false_or]
      constructor
      · intro h
        exact (Function.update_eq_self_iff.mp (congrArg World.platform h)).symm ▸ rfl
      · intro h
        rw [h, Function.update_eq_self]

omit [DecidableEq Ctl] in
/-- While the control stays as it is, what was pinned is unpinned. -/
theorem unpinModule_of_pinModule {dlopen : Path → Option Handle} {p : Platform Handle Path Ext} {h : Handle}
    (hpin : (pinModule windows dlopen p).1 = some h) :
    (unpinModule windows (pinModule windows dlopen p).2).1 = some h := by
  cases windows with
  | true => exact hpin
  | false =>
    cases hpath : p.modulePath with
    | none => simp [pinModule, hpath] at hpin
    | some path => simpa [pinModule, unpinModule, hpath] using hpin

/-- What a discovery does to a control that it does not register: on POSIX the reference taken by the
first lease is kept, on Windows the last one gives back a reference to the module last asked for. -/
theorem discovery_unpins : (unpinModule false ((discoverModule cap exports w o control).1.platform control)).1 =
      (unpinModule false (w.platform control)).1 ∧
    (unpinModule true ((discoverModule cap exports w o control).1.platform control)).1 =
      if o.manifest exports = none then (unpinModule true (w.platform control)).1 else o.module := by
  cases hm : o.manifest exports with
  | none =>
    rw [(discoverModule_of_none hm).2]
    exact ⟨rfl, (if_pos rfl).symm⟩
  | some m =>
    rw [discoverModule_of_some hm]
    simp [unpinModule, bindModulePlatform]

def bareManifest : ModuleManifest := ⟨1, .ofList [] (Nat.two_pow_pos 32)⟩

def twoModules (_ : Bool) : Option (Option ModuleManifest) := some (some bareManifest)

/-- The first module has been discovered with the control, and a lease is held. -/
def leased (w : World Unit Bool Bool Empty) : World Unit Bool Bool Empty :=
  let found := (discoverModule {} twoModules w ⟨some false, "a", false⟩ ()).1
  { found with registry := (step {} found.registry (.control () .active 1)).1 }

/-- The second module, discovered with the same control, is refused as already registered, and on
Windows the end of the lease frees the second module instead of the first. -/
theorem failed_discovery_rebinds :
    (discoverModule {} twoModules (leased {}) ⟨some true, "b", true⟩ ()).2.ok = false ∧
      (discoverModule {} twoModules (leased {}) ⟨some true, "b", true⟩ ()).2.registration = .alreadyRegistered ∧
      (unpinModule true ((leased {}).platform ())).1 = some false ∧
      (unpinModule true ((discoverModule {} twoModules (leased {}) ⟨some true, "b", true⟩ ()).1.platform ())).1 =
        some true ∧
      ¬ Unchanged (leased {}) (discoverModule {} twoModules (leased {}) ⟨some true, "b", true⟩ ()).1 () := by
  refine ⟨by decide, by decide, by decide, by decide, fun h => ?_⟩
  have hhandle := h.2 true
  revert hhandle
  decide

end Abix.Interface.Discovery
