import Abix.DLL.Serving

/-! A handle that was resolved with a version. `try_resolve` asks for the version, but the handle does
not keep it, and neither path of a call looks at the version of the entry it finds. -/
namespace Abix.DLL.Function
open Abix.Concurrency Abix.Runtime

/-- `try_resolve` on the image that it loads in its section, with that image's index: what it returns,
and the handle that it leaves. `hash` is `runtime::name_hash`. -/
def tryResolve (hash : Option CString → UInt32) (control : Bool) (image : Option (Image × HashIndex))
    (name : Option CString) (sig ver : UInt64) : Except Fault (CallError × Handle) :=
  let h : Handle := ⟨control, name.getD [], hash name, noIndex, sig⟩
  if control = false then .ok (.loadFailed, h)
  else match image with
  | none => .ok (.notLoaded, h)
  | some (img, index) =>
    match img.exportTable with
    | none => .ok (.notLoaded, h)
    | some t => (findIndex t index name h.nameHash sig ver).map fun r =>
      match r.1 with
      | .ok => (.none, { h with index := r.2 })
      | .sigMismatch => (.sigMismatch, { h with index := r.2 })
      | .versionMismatch => (.versionMismatch, h)
      | .notFound => (.notFound, h)
      | .badTable => (.loadFailed, h)

variable {Tid Addr : Type} [DecidableEq Tid] [DecidableEq Addr] {h : Handle} {t : Tid} {a : Action Addr}
  {sh sh' : Shared Tid Addr} {l l' : Local Addr} {c c₀ : Config Tid (Shared Tid Addr) (Local Addr)} {x : Addr}
  {hash : Option CString → UInt32} {control : Bool} {image : Option (Image × HashIndex)} {name : Option CString}
  {sig ver : UInt64}

/-- A handle that was resolved points at an entry of the image with its name and signature, and of no
other version. -/
theorem tryResolve_matching (hres : tryResolve hash control image name sig ver = .ok (.none, h)) :
    ∃ img index tbl e, image = some (img, index) ∧ img.exportTable = some tbl ∧ h.entry tbl = some e ∧
      Matching h.name h.sig ver e := by
  unfold tryResolve at hres
  split at hres
  · cases hres
  · split at hres
    · cases hres
    · rename_i img index
      split at hres
      · cases hres
      · rename_i tbl htbl
        cases hfind : findIndex tbl index name (hash name) sig ver with
        | error f => simp [hfind, Except.map] at hres
        | ok r =>
        obtain ⟨result, i⟩ := r
        simp only [hfind, Except.map, Except.ok.injEq] at hres
        cases result with
        | ok =>
          obtain ⟨-, rfl⟩ := Prod.mk.inj hres
          cases name with
          | none =>
            simp [findIndex, findHash, findLinear] at hfind
          | some name =>
            obtain ⟨e, he, hm⟩ := findIndex_found hfind
            have hcount : i < tbl.count := by
              rw [UInt32.lt_iff_toNat_lt, ← tbl.counted]
              exact (List.getElem?_eq_some_iff.mp he).1
            refine ⟨img, index, tbl, e, rfl, htbl, ?_, hm⟩
            rw [Handle.entry, if_pos hcount, he]
        | notFound | sigMismatch | versionMismatch | badTable => cases hres

instance (a : Action Addr) : Decidable (a = .call) :=
  match a with
  | .call => isTrue rfl
  | .enterRead | .exitRead | .run | .resume | .allocate _ _ | .exchange _ | .setState _ | .free _ => isFalse (by simp)

def Pc.Uncalled : Pc Addr → Prop
  | .idle _ | .readEnter .user | .readLoad .user | .readBail .user => True
  | _ => False

private theorem Moves.uncalled (hm : Moves h t sh l a sh' l') (hcall : a ≠ .call) (hver : sh.verifiedImage = none)
    (hpc : l.pc.Uncalled) (hframes : l.frames = []) :
    sh'.verifiedImage = none ∧ l'.pc.Uncalled ∧ l'.frames = [] := by
  cases hm with
  | begins => exact absurd rfl hcall
  | @asks caller huser =>
    refine ⟨hver, trivial, ?_⟩
    cases hp : l.pc with
    | idle d =>
      rw [hp] at huser
      obtain rfl := Option.some.inj huser
      exact hframes
    | readEnter r | readLoad r | readBail r =>
      rw [hp] at huser
      cases huser
    | _ =>
      rw [hp] at hpc
      exact hpc.elim
  | leaves => exact ⟨hver, trivial, hframes⟩
  | @readEnters r hp | @findsNothing r hp =>
    rw [hp] at hpc
    cases r with
    | slowPath => exact hpc.elim
    | user => exact ⟨hver, trivial, hframes⟩
  | @findsTableless r x img hp | @findsTable r x img tbl hp =>
    rw [hp] at hpc
    cases r with
    | slowPath => exact hpc.elim
    | user => exact ⟨hver, trivial, hframes⟩
  | bailsUser => exact ⟨hver, trivial, hframes⟩
  | resumes _ hf => cases hframes.symm.trans hf
  | replaces hr => cases hr <;> exact ⟨hver, hpc, hframes⟩
  | _ hp =>
    rw [hp] at hpc
    exact hpc.elim

/-- A handle that nobody has called remembers no image. -/
theorem uncalled_of_reachable [Fintype Tid]
    (hc : (calls Tid Addr h).Reachable (fun _ _ a => a ≠ .call) (start Tid Addr) c) :
    c.shared.verifiedImage = none ∧ ∀ t, (c.locals t).pc.Uncalled ∧ (c.locals t).frames = [] := by
  have hstable : (calls Tid Addr h).Stable (fun _ _ a => a ≠ .call) (fun sh => sh.verifiedImage = none)
      (fun _ _ l => l.pc.Uncalled ∧ l.frames = []) := by
    constructor
    · intro c t a sh l hcall hver hj hs
      exact (moves_of_step hs).uncalled hcall hver (hj t).1 (hj t).2
    · intro c t a sh l _ _ hj _ u _
      exact hj u
  have hstart (t : Tid) : ((start Tid Addr).locals t).pc.Uncalled ∧ ((start Tid Addr).locals t).frames = [] :=
    ⟨trivial, rfl⟩
  exact hstable.reachable rfl hstart hc

omit [DecidableEq Tid] [DecidableEq Addr] in
theorem Pc.Uncalled.serving {P : Entry → Prop} {pc : Pc Addr} (hpc : pc.Uncalled) : Serving P h sh pc := by
  cases pc with
  | idle | readEnter | readLoad | readBail => trivial
  | _ => exact hpc.elim

/-- Right after `try_resolve` the current image has no entry of another version for the handle. -/
theorem vouched_of_resolved [Fintype Tid] {index : HashIndex} {img : Image}
    (hc : (calls Tid Addr h).Reachable (fun _ _ a => a ≠ .call) (start Tid Addr) c)
    (hcur : c.shared.image = some x) (himg : c.shared.heap x = some img)
    (hres : tryResolve hash control (some (img, index)) name sig ver = .ok (.none, h)) :
    Vouched (fun e => ¬ Conflicts ver e) h c := by
  obtain ⟨hver, hpcs⟩ := uncalled_of_reachable hc
  refine ⟨fun y hy img' himg' tbl htbl e he _ _ => ?_, fun y hy => ?_, fun t => (hpcs t).1.serving⟩
  · obtain ⟨img₁, index₁, tbl₁, e₁, hsome, htbl₁, he₁, hm⟩ := tryResolve_matching hres
    obtain ⟨rfl, rfl⟩ := Prod.mk.inj (Option.some.inj hsome)
    obtain rfl := Option.some.inj (hcur.symm.trans hy)
    obtain rfl := Option.some.inj (himg.symm.trans himg')
    obtain rfl := Option.some.inj (htbl₁.symm.trans htbl)
    obtain rfl := Option.some.inj (he₁.symm.trans he)
    exact hm.version
  · cases hver.symm.trans hy

/-- The slow path has found the table of an image, and its entry for the handle is of another version. -/
def Local.FindsOther (l : Local Addr) (ver : UInt64) (h : Handle) : Prop :=
  ∃ v x tbl e, l.pc = .slowCheck v (some (x, tbl)) ∧ h.entry tbl = some e ∧ Conflicts ver e

/-- The call is about to return with an error, and has invoked nothing. -/
def Local.Refusing (l : Local Addr) : Prop := ∃ error, error ≠ .none ∧ l.pc = .slowFail error ∧ l.invoked = []

/-- The thread may invoke `fn`: it is the pointer of the entry for the handle in an image that was current
during the thread's open section, and the entry is of no other version. -/
def KeepsVersion (ver : UInt64) (h : Handle) (sh : Shared Tid Addr) (t : Tid) (fn : UInt64) : Prop :=
  sh.reading t = true ∧ ∃ x ∈ sh.seen t, Serves (fun e => ¬ Conflicts ver e) h sh x fn

omit [DecidableEq Tid] [DecidableEq Addr] in
private theorem slowPath_refuses {P : Entry → Prop} {v : Option Addr} {tbl : Table} {e : Entry} (he : h.entry tbl = some e)
    (hright : h.Slow e → e.fnptr ≠ 0 → P e) (hbad : ¬ P e) : ∃ error, error ≠ .none ∧ slowPath h v x tbl = .slowFail error := by
  unfold slowPath
  simp only [he]
  split
  · exact ⟨.tableChanged, by decide, rfl⟩
  · rename_i hslow
    split
    · exact ⟨.invalid, by decide, rfl⟩
    · rename_i hfn
      exact absurd (hright (not_not.mp hslow) hfn) hbad

theorem Vouched.refuses [Fintype Tid] (hv : Vouched (fun e => ¬ Conflicts ver e) h c)
    (hc : (calls Tid Addr h).Reachable Program.anyStep (start Tid Addr) c)
    {c' : Config Tid (Shared Tid Addr) (Local Addr)} (hn : (calls Tid Addr h).next c t .run = some c')
    (hother : (c.locals t).FindsOther ver h) : (c'.locals t).Refusing := by
  obtain ⟨v, x, tbl, e, hpc, he, hconf⟩ := hother
  obtain ⟨sh, l, hs, rfl⟩ := Program.next_eq_some_iff.mp hn
  have hk := keeps_of_reachable hc t
  have hserving := hv.serving t
  rw [Keeps, hpc] at hk
  rw [hpc] at hserving
  obtain ⟨img, -, htbl, hright⟩ := hserving
  obtain ⟨error, herror, hslow⟩ := slowPath_refuses (P := fun e => ¬ Conflicts ver e) (v := v) (x := x) he
    (hright tbl htbl e he) (not_not.mpr hconf)
  have hrun : run h t c.shared (c.locals t) = some (sh, l) := hs
  rw [run, hpc] at hrun
  obtain ⟨-, rfl⟩ := Prod.mk.inj (Option.some.inj hrun)
  simp only [Function.update_self]
  exact ⟨error, herror, hslow, hk.1.1⟩

/-- After `try_resolve` with a version has succeeded, over every run in which no image is published whose
entry for the handle would pass the tests of a call but is of another version: every pointer that the
handle invokes is that of an entry of no other version, and a call that finds an entry of another version
is refused. -/
theorem pinned_version_is_kept [Fintype Tid] {img : Image} {index : HashIndex}
    (hc₀ : (calls Tid Addr h).Reachable (fun _ _ a => a ≠ .call) (start Tid Addr) c₀)
    (hcur : c₀.shared.image = some x) (himg : c₀.shared.heap x = some img)
    (hres : tryResolve hash control (some (img, index)) name sig ver = .ok (.none, h))
    (hc : (calls Tid Addr h).Reachable (Vouches (fun e => ¬ Conflicts ver e) h) c₀ c)
    {c' : Config Tid (Shared Tid Addr) (Local Addr)} (hn : (calls Tid Addr h).next c t a = some c') :
    (∀ fn, (c'.locals t).invoked = fn :: (c.locals t).invoked → KeepsVersion ver h c.shared t fn) ∧
      (a = .run → (c.locals t).FindsOther ver h → (c'.locals t).Refusing) := by
  have hany : (calls Tid Addr h).Reachable Program.anyStep (start Tid Addr) c₀ := hc₀.mono fun _ _ _ _ => trivial
  have hreach : (calls Tid Addr h).Reachable Program.anyStep (start Tid Addr) c :=
    hany.trans (hc.mono fun _ _ _ _ => trivial)
  have hv := vouched_of_run hany (vouched_of_resolved hc₀ hcur himg hres) hc
  refine ⟨fun fn hi => hv.invokes hreach hn hi, ?_⟩
  rintro rfl hother
  exact hv.refuses hreach hn hother

private def exportingVersion (version fn : UInt64) : Image :=
  ⟨some { count := 1, entries := [⟨typy, 7, version, fn, 3698225526⟩], counted := rfl }⟩

private def loadFirst : List (Unit × Action Nat) :=
  [((), .allocate 0 (exportingVersion 1 16)), ((), .exchange (some 0)), ((), .setState .active)]

private theorem resolve_first : tryResolve (fun _ => 3698225526) true (some (exportingVersion 1 16, {})) (some typy) 7 1 =
    .ok (.none, typyHandle) := rfl

/-- The handle is called, the image is replaced by one of the same version, and the handle is called again. -/
private def reloadSame : List (Unit × Action Nat) :=
  ((), .call) :: List.replicate 12 ((), .run) ++
    [((), .allocate 1 (exportingVersion 1 32)), ((), .exchange (some 1)), ((), .call)] ++ List.replicate 10 ((), .run)

theorem pinned_version_is_kept_reloaded : ∃ c : Config Unit (Shared Unit Nat) (Local Nat),
    c.shared.image = some 1 ∧ KeepsVersion 1 typyHandle c.shared () 32 := by
  have hrun : (((calls Unit Nat typyHandle).exec (fun _ _ a => a ≠ .call) (start Unit Nat) loadFirst).bind fun c₀ =>
      ((calls Unit Nat typyHandle).exec (Vouches (fun e => ¬ Conflicts 1 e) typyHandle) c₀ reloadSame).bind fun c =>
        ((calls Unit Nat typyHandle).next c () .run).map fun c' =>
          decide (c₀.shared.image = some 0 ∧ c₀.shared.heap 0 = some (exportingVersion 1 16) ∧
            c.shared.image = some 1 ∧ (c'.locals ()).invoked = 32 :: (c.locals ()).invoked)) = some true := by
    decide
  obtain ⟨c₀, hc₀, hrun⟩ := Option.bind_eq_some_iff.mp hrun
  obtain ⟨c, hc, hrun⟩ := Option.bind_eq_some_iff.mp hrun
  obtain ⟨c', hn, hd⟩ := Option.map_eq_some_iff.mp hrun
  obtain ⟨hcur, himg, hreloaded, hi⟩ := of_decide_eq_true hd
  exact ⟨c, hreloaded,
    (pinned_version_is_kept (.of_exec .init hc₀) hcur himg resolve_first (.of_exec .init hc) hn).1 32 hi⟩

/-- The condition asks for no more than it must: once the current image has such an entry, the next call
of any thread invokes it. -/
theorem next_call_loses_version [Fintype Tid] {img : Image} {tbl : Table} {e : Entry} {caller : Option Path}
    (hcontrol : h.control = true) (hactive : c.shared.state = .active) (hcur : c.shared.image = some x)
    (himg : c.shared.heap x = some img) (htbl : img.exportTable = some tbl) (he : h.entry tbl = some e)
    (hslow : h.Slow e) (hfn : e.fnptr ≠ 0) (hconf : Conflicts ver e) (hpc : (c.locals t).pc.user = some caller) :
    ∃ n c₁ c₂, (calls Tid Addr h).exec Program.anyStep c ((t, .call) :: List.replicate n (t, .run)) = some c₁ ∧
      (calls Tid Addr h).next c₁ t .run = some c₂ ∧ (c₂.locals t).invoked = e.fnptr :: (c₁.locals t).invoked ∧
      ¬ KeepsVersion ver h c₁.shared t e.fnptr := by
  have hloses {sh : Shared Tid Addr} (hheap : sh.heap x = some img) (hseen : sh.seen t = [x]) :
      ¬ KeepsVersion ver h sh t e.fnptr := by
    rintro ⟨-, y, hy, img', tbl', e', himg', htbl', he', -, hkept⟩
    rw [hseen, List.mem_singleton] at hy
    subst hy
    obtain rfl := Option.some.inj (hheap.symm.trans himg')
    obtain rfl := Option.some.inj (htbl.symm.trans htbl')
    obtain rfl := Option.some.inj (he.symm.trans he')
    exact hkept hconf
  have hexec (n : Nat) : (calls Tid Addr h).exec Program.anyStep c ((t, .call) :: List.replicate n (t, .run)) =
      ((calls Tid Addr h).alone t (c.shared, c.locals t) (.call :: List.replicate n .run)).map fun r =>
        ⟨r.1, Function.update c.locals t r.2⟩ := by
    rw [← Program.exec_alone, List.map_cons, List.map_replicate]
  let sh : Shared Tid Addr := (c.shared.enter t).hold t (some x)
  let l : Local Addr := (c.locals t).push (c.shared.reading t) caller
  have hbegin : step h t c.shared (c.locals t) .call = some (c.shared, { l with pc := .fastEnter }) := by
    simp [step, hpc, begin, hcontrol, l]
  have henter : run h t c.shared { l with pc := .fastEnter } = some (c.shared.enter t, { l with pc := .fastLoad }) := rfl
  have hload : run h t (c.shared.enter t) { l with pc := .fastLoad } = some (sh, { l with pc := .fastCompare (some x) }) := by
    have himage : (c.shared.enter t).image = some x := hcur
    rw [run, himage]
  by_cases hver : c.shared.verifiedImage = some x
  · -- The image is remembered: the fast path takes its entry.
    let l₁ : Local Addr := { l with pc := .fastCall x e.fnptr }
    have hcompare : run h t sh { l with pc := .fastCompare (some x) } = some (sh, l₁) := by
      have hpasses : h.Fast e := ⟨hslow.1, hslow.2.1, hfn⟩
      simp [run, fastPath, sh, Shared.hold, Shared.enter, hver, himg, htbl, he, hpasses, l₁]
    refine ⟨3, ⟨sh, Function.update c.locals t l₁⟩,
      ⟨sh, Function.update c.locals t { l₁.invoke e.fnptr with pc := .fastReturn }⟩, ?_, ?_, ?_, ?_⟩
    · have halone : (calls Tid Addr h).alone t (c.shared, c.locals t) (.call :: List.replicate 3 .run) = some (sh, l₁) := by
        apply Program.alone_cons hbegin
        apply Program.alone_cons henter
        apply Program.alone_cons hload
        exact Program.alone_cons hcompare rfl
      rw [hexec, halone, Option.map_some]
    · simp [Program.next, calls, Spares, step, run, l₁]
    · simp [l₁, Local.invoke, Local.report]
    · refine hloses himg ?_
      simp [sh, Shared.hold, Shared.enter, hcur]
  · -- The slow path finds the image and takes its entry.
    let sh' : Shared Tid Addr := ((sh.exit t).enter t).hold t (some x)
    let l₁ : Local Addr := { l with pc := .slowCall x e.fnptr, found := some .table }
    have hmiss : run h t sh { l with pc := .fastCompare (some x) } = some (sh, { l with pc := .fastExit }) := by
      simp [run, fastPath, sh, Shared.hold, Shared.enter, hver]
    have hexit : run h t sh { l with pc := .fastExit } = some (sh.exit t, { l with pc := .slowState }) := rfl
    have hstate : run h t (sh.exit t) { l with pc := .slowState } = some (sh.exit t, { l with pc := .slowImage }) := by
      have hactive : (sh.exit t).state = .active := hactive
      simp [run, hactive]
    have hagain : run h t (sh.exit t) { l with pc := .slowImage } =
        some (sh.exit t, { l with pc := .readEnter (.slowPath (some x)) }) := by
      have himage : (sh.exit t).image = some x := hcur
      rw [run, himage]
    have hread : run h t (sh.exit t) { l with pc := .readEnter (.slowPath (some x)) } =
        some ((sh.exit t).enter t, { l with pc := .readLoad (.slowPath (some x)) }) := rfl
    have hfind : run h t ((sh.exit t).enter t) { l with pc := .readLoad (.slowPath (some x)) } =
        some (sh', { l with pc := .slowCheck (some x) (some (x, tbl)), found := some .table }) := by
      have himage : ((sh.exit t).enter t).image = some x := hcur
      have hheap : ((sh.exit t).enter t).heap x = some img := himg
      simp [run, readImage, hcontrol, himage, hheap, htbl, Reader.return, sh']
    have hcheck : run h t sh' { l with pc := .slowCheck (some x) (some (x, tbl)), found := some .table } =
        some (sh', { l with pc := .slowStore (some x) x e.fnptr, found := some .table }) := by
      simp [run, slowPath, he, hslow, hfn]
    have hstore : run h t sh' { l with pc := .slowStore (some x) x e.fnptr, found := some .table } =
        some ({ sh' with verifiedImage := some x }, l₁) := rfl
    refine ⟨10, ⟨{ sh' with verifiedImage := some x }, Function.update c.locals t l₁⟩,
      ⟨{ sh' with verifiedImage := some x }, Function.update c.locals t { l₁.invoke e.fnptr with pc := .slowReturn }⟩,
      ?_, ?_, ?_, ?_⟩
    · have halone : (calls Tid Addr h).alone t (c.shared, c.locals t) (.call :: List.replicate 10 .run) =
          some ({ sh' with verifiedImage := some x }, l₁) := by
        apply Program.alone_cons hbegin
        apply Program.alone_cons henter
        apply Program.alone_cons hload
        apply Program.alone_cons hmiss
        apply Program.alone_cons hexit
        apply Program.alone_cons hstate
        apply Program.alone_cons hagain
        apply Program.alone_cons hread
        apply Program.alone_cons hfind
        apply Program.alone_cons hcheck
        exact Program.alone_cons hstore rfl
      rw [hexec, halone, Option.map_some]
    · simp [Program.next, calls, Spares, step, run, l₁]
    · simp [l₁, Local.invoke, Local.report]
    · refine hloses himg ?_
      simp [sh, sh', Shared.hold, Shared.enter, Shared.exit, hcur]

/-- The image of version 1 is replaced by one of version 2, and the handle is called. -/
private def reloadSecond : List (Unit × Action Nat) :=
  [((), .allocate 1 (exportingVersion 2 32)), ((), .exchange (some 1)), ((), .call)] ++ List.replicate 10 ((), .run)

/-- A handle that asked for version 1 calls the function of version 2. -/
theorem pinned_version_is_lost : ∃ c₀ c c' : Config Unit (Shared Unit Nat) (Local Nat),
    (calls Unit Nat typyHandle).Reachable (fun _ _ a => a ≠ .call) (start Unit Nat) c₀ ∧
      c₀.shared.image = some 0 ∧ c₀.shared.heap 0 = some (exportingVersion 1 16) ∧
      tryResolve (fun _ => 3698225526) true (some (exportingVersion 1 16, {})) (some typy) 7 1 = .ok (.none, typyHandle) ∧
      (calls Unit Nat typyHandle).Reachable Program.anyStep c₀ c ∧ (calls Unit Nat typyHandle).next c () .run = some c' ∧
      (c'.locals ()).invoked = 32 :: (c.locals ()).invoked ∧ ¬ KeepsVersion 1 typyHandle c.shared () 32 := by
  have hrun : (((calls Unit Nat typyHandle).exec (fun _ _ a => a ≠ .call) (start Unit Nat) loadFirst).bind fun c₀ =>
      ((calls Unit Nat typyHandle).exec Program.anyStep c₀ reloadSecond).bind fun c =>
        ((calls Unit Nat typyHandle).next c () .run).map fun c' =>
          decide (c₀.shared.image = some 0 ∧ c₀.shared.heap 0 = some (exportingVersion 1 16) ∧
            (c'.locals ()).invoked = 32 :: (c.locals ()).invoked ∧ c.shared.seen () = [1] ∧
              c.shared.heap 1 = some (exportingVersion 2 32))) = some true := by
    decide
  obtain ⟨c₀, hc₀, hrun⟩ := Option.bind_eq_some_iff.mp hrun
  obtain ⟨c, hc, hrun⟩ := Option.bind_eq_some_iff.mp hrun
  obtain ⟨c', hn, hd⟩ := Option.map_eq_some_iff.mp hrun
  obtain ⟨hcur, himg, hi, hseen, hheap⟩ := of_decide_eq_true hd
  refine ⟨c₀, c, c', .of_exec .init hc₀, hcur, himg, resolve_first, .of_exec .init hc, hn, hi, ?_⟩
  rintro ⟨-, x, hx, img, tbl, e, himg', htbl, he, -, hkept⟩
  rw [hseen, List.mem_singleton] at hx
  subst hx
  obtain rfl := Option.some.inj (hheap.symm.trans himg')
  obtain rfl := Option.some.inj htbl
  obtain rfl := Option.some.inj he
  exact hkept (by decide)

end Abix.DLL.Function
