import Abix.DLL.CallSteps

/-! What a call leaves behind: the read section and `last_error()`. -/
namespace Abix.DLL.Function
open Abix.Concurrency Abix.Runtime
variable {Tid Addr : Type} [DecidableEq Tid] [DecidableEq Addr] {h : Handle} {t u : Tid} {a : Action Addr}
  {sh sh' : Shared Tid Addr} {l l' : Local Addr}

/-- The call has invoked one pointer and cleared the error. -/
def Local.Invoked (l : Local Addr) : Prop := (∃ fn, l.invoked = [fn]) ∧ l.reported = true ∧ l.lastError = .none

def Local.Refused (l : Local Addr) : Prop := l.invoked = [] ∧ l.reported = true ∧ l.lastError ≠ .none

/-- The call has neither invoked anything nor touched the error. -/
def Local.Quiet (l : Local Addr) : Prop := l.invoked = [] ∧ l.reported = false

def Disciplined (sh : Shared Tid Addr) (t : Tid) (l : Local Addr) : Prop :=
  sh.reading t = false ∧ (l.Invoked ∨ l.Refused)

/-- Where `enter_read` has returned null: outside the section when it found no image, inside it
when it found one without a table. -/
def Refusal (reading : Bool) (l : Local Addr) : Prop :=
  l.found = some .nothing ∧ reading = false ∨ l.found = some .tableless ∧ reading = true

/-- What holds of a thread at each place; `reading` is whether its section is open. -/
def Keeps (reading : Bool) (l : Local Addr) : Prop :=
  match l.pc with
  | .idle .none => True
  | .idle .call => l.undisturbed = true → (l.found = none ∨ l.found = some .table) ∧ reading = false ∧
      (l.Invoked ∨ l.Refused) ∨ l.Quiet ∧ Refusal reading l
  | .idle (.table none) => Refusal reading l
  | .idle (.table (some _)) => l.found = some .table ∧ reading = true
  | .fastEnter => l.Quiet ∧ l.found = none ∧ (l.undisturbed = true → reading = false)
  | .slowState => l.Quiet ∧ l.found = none ∧ reading = false
  | .slowImage | .readEnter _ => l.Quiet ∧ l.found = none
  | .fastLoad | .fastCompare _ | .fastCall _ _ | .fastExit | .readLoad _ => l.Quiet ∧ l.found = none ∧ reading = true
  | .fastReturn => l.undisturbed = true → l.Invoked ∧ l.found = none
  | .readBail _ => l.Quiet ∧ l.found = some .nothing ∧ reading = true
  | .slowCheck _ none => l.Quiet ∧ Refusal reading l
  | .slowFail error => l.Quiet ∧ l.found = some .table ∧ reading = true ∧ error ≠ .none
  | .slowCheck _ (some _) | .slowStore _ _ _ | .slowCall _ _ => l.Quiet ∧ l.found = some .table ∧ reading = true
  | .slowReturn => l.undisturbed = true → l.Invoked ∧ l.found = some .table

omit [DecidableEq Addr] in
@[simp] theorem enter_reading_self : (sh.enter t).reading t = true := Function.update_self ..

omit [DecidableEq Addr] in
@[simp] theorem exit_reading_self : (sh.exit t).reading t = false := Function.update_self ..

omit [DecidableEq Addr] in
theorem Local.Quiet.invoke (hq : l.Quiet) (fn : UInt64) : (l.invoke fn).Invoked :=
  ⟨⟨fn, by rw [Local.invoke, hq.1]⟩, rfl, rfl⟩

omit [DecidableEq Addr] in
theorem Local.Quiet.report (hq : l.Quiet) {error : CallError} (he : error ≠ .none) : (l.report error).Refused :=
  ⟨hq.1, rfl, he⟩

/-- Threads open and close their own section only. -/
theorem Moves.reading_ne (hm : Moves h t sh l a sh' l') (hne : u ≠ t) : sh'.reading u = sh.reading u := by
  cases hm with
  | replaces hr => cases hr <;> rfl
  | fastEnters | readEnters | leaves | fastReturns | fastExits | bails | bailsUser | fails | slowReturns =>
    exact Function.update_of_ne hne _ _
  | _ => rfl

theorem Moves.keeps (hm : Moves h t sh l a sh' l') (hk : Keeps (sh.reading t) l) : Keeps (sh'.reading t) l' := by
  unfold Keeps at hk
  cases hm with
  | @begins caller hpc =>
    have hout (hu : (l.push (sh.reading t) caller).undisturbed = true) : sh.reading t = false := by
      simpa [Local.push] using hu
    unfold begin
    split
    · exact ⟨⟨rfl, rfl⟩, rfl, hout⟩
    · exact fun hu => .inl ⟨.inl rfl, hout hu, .inr ⟨rfl, rfl, show CallError.notLoaded ≠ .none by decide⟩⟩
  | asks hpc => exact ⟨⟨rfl, rfl⟩, rfl⟩
  | leaves => trivial
  | @resumes d path =>
    cases path with
    | fast => exact nofun
    | slow => exact nofun
  | fastEnters hpc =>
    rw [hpc] at hk
    exact ⟨hk.1, hk.2.1, enter_reading_self⟩
  | readEnters hpc =>
    rw [hpc] at hk
    exact ⟨hk.1, hk.2, enter_reading_self⟩
  | fastLoads hpc | fastMisses hpc | fastHits hpc | slowLoads hpc | verifies hpc | stores hpc =>
    rw [hpc] at hk
    exact hk
  | active hpc =>
    rw [hpc] at hk
    exact ⟨hk.1, hk.2.1⟩
  | fastInvokes hpc | slowInvokes hpc =>
    rw [hpc] at hk
    exact fun _ => ⟨hk.1.invoke _, hk.2.1⟩
  | fastReturns hpc =>
    rw [hpc] at hk
    exact fun hu => .inl ⟨.inl (hk hu).2, exit_reading_self, .inl (hk hu).1⟩
  | fastExits hpc =>
    rw [hpc] at hk
    exact ⟨hk.1, hk.2.1, exit_reading_self⟩
  | inactive hpc =>
    rw [hpc] at hk
    exact fun _ => .inl ⟨.inl hk.2.1, hk.2.2, .inr (hk.1.report (show CallError.notLoaded ≠ .none by decide))⟩
  | findsNothing hpc =>
    rw [hpc] at hk
    exact ⟨hk.1, rfl, hk.2.2⟩
  | @findsTableless r _ _ hpc =>
    rw [hpc] at hk
    cases r with
    | slowPath => exact ⟨hk.1, .inr ⟨rfl, hk.2.2⟩⟩
    | user => exact .inr ⟨rfl, hk.2.2⟩
  | @findsTable r _ _ _ hpc =>
    rw [hpc] at hk
    cases r with
    | slowPath => exact ⟨hk.1, rfl, hk.2.2⟩
    | user => exact ⟨rfl, hk.2.2⟩
  | bails hpc =>
    rw [hpc] at hk
    exact ⟨hk.1, .inl ⟨hk.2.1, exit_reading_self⟩⟩
  | bailsUser hpc =>
    rw [hpc] at hk
    exact .inl ⟨hk.2.1, exit_reading_self⟩
  | giveUp hpc =>
    rw [hpc] at hk
    exact fun _ => .inr hk
  | refuses hpc he =>
    rw [hpc] at hk
    exact ⟨hk.1, hk.2.1, hk.2.2, he⟩
  | fails hpc =>
    rw [hpc] at hk
    exact fun _ => .inl ⟨.inr hk.2.1, exit_reading_self, .inr (hk.1.report hk.2.2.2)⟩
  | slowReturns hpc =>
    rw [hpc] at hk
    exact fun hu => .inl ⟨.inr (hk hu).2, exit_reading_self, .inl (hk hu).1⟩
  | replaces hr => cases hr <;> exact hk

theorem keeps_of_reachable [Fintype Tid]
    {ok : Config Tid (Shared Tid Addr) (Local Addr) → Tid → Action Addr → Prop}
    {c : Config Tid (Shared Tid Addr) (Local Addr)} (hc : (calls Tid Addr h).Reachable ok (start Tid Addr) c) (t : Tid) :
    Keeps (c.shared.reading t) (c.locals t) := by
  have hstable : (calls Tid Addr h).Stable ok (fun _ => True) (fun sh t l => Keeps (sh.reading t) l) := by
    constructor
    · intro c t a sh l _ _ hj hs
      exact ⟨trivial, (moves_of_step hs).keeps (hj t)⟩
    · intro c t a sh l _ _ hj hs u hne
      simp only [(moves_of_step hs).reading_ne hne]
      exact hj u
  have hstart (t : Tid) : Keeps ((start Tid Addr).shared.reading t) ((start Tid Addr).locals t) := trivial
  exact (hstable.reachable trivial hstart hc).2 t

def Pc.left : Pc Addr → Nat
  | .idle _ => 0
  | .fastReturn | .slowReturn | .slowFail _ => 1
  | .fastCall _ _ | .slowCall _ _ => 2
  | .slowStore _ _ _ => 3
  | .slowCheck _ _ => 4
  | .readBail _ => 5
  | .readLoad _ => 6
  | .readEnter _ => 7
  | .slowImage => 8
  | .slowState => 9
  | .fastExit => 10
  | .fastCompare _ => 11
  | .fastLoad => 12
  | .fastEnter => 13

theorem Moves.left (hm : Moves h t sh l .run sh' l') : l'.pc.left < l.pc.left := by
  cases hm with
  | @findsTableless r _ _ hpc | @findsTable r _ _ _ hpc =>
    rw [hpc]
    cases r <;> simp [Reader.return, Pc.left]
  | replaces hr => cases hr
  | _ hpc =>
    rw [hpc]
    simp [Pc.left]

private theorem run_enabled (hr : Rooted sh) (hh : ∀ x, l.pc.image = some x → sh.held t = some x) (hpc : ∀ d, l.pc ≠ .idle d) :
    ∃ sh' l', run h t sh l = some (sh', l') := by
  obtain ⟨pc, lastError, reported, invoked, found⟩ := l
  cases pc with
  | idle d => exact absurd rfl (hpc d)
  | fastCompare image =>
    cases image with
    | none => exact ⟨_, _, rfl⟩
    | some x =>
      obtain ⟨img, himg⟩ := Option.isSome_iff_exists.mp (hr.held t x (hh x rfl))
      simp only [run, fastPath, himg, Option.map_some]
      split <;> exact ⟨_, _, rfl⟩
  | readLoad r =>
    simp only [run]
    split
    · cases hcur : sh.image with
      | none => exact ⟨_, _, rfl⟩
      | some x =>
        obtain ⟨img, himg⟩ := Option.isSome_iff_exists.mp (hr.current x hcur)
        rw [readImage, himg]
        exact ⟨_, _, rfl⟩
    · exact ⟨_, _, rfl⟩
  | readBail r => cases r <;> exact ⟨_, _, rfl⟩
  | slowCheck v found =>
    cases found with
    | none => exact ⟨_, _, rfl⟩
    | some x => exact ⟨_, _, rfl⟩
  | _ => exact ⟨_, _, rfl⟩

omit [DecidableEq Tid] [DecidableEq Addr] in
/-- At its end a call is disciplined unless `enter_read` let it down. -/
theorem Keeps.disciplined_iff (hk : Keeps (sh.reading t) l) (hpc : l.pc = .idle .call) (hu : l.undisturbed = true) :
    Disciplined sh t l ↔ l.found ≠ some .nothing ∧ l.found ≠ some .tableless := by
  rw [Keeps, hpc] at hk
  rcases hk hu with ⟨hf, hd⟩ | ⟨hq, hf⟩
  · exact iff_of_true hd (by rcases hf with hf | hf <;> simp [hf])
  · refine iff_of_false ?_ (by rcases hf with ⟨hf, -⟩ | ⟨hf, -⟩ <;> simp [hf])
    rintro ⟨-, ⟨-, hr, -⟩ | ⟨-, hr, -⟩⟩ <;> exact absurd (hr.symm.trans hq.2) (by decide)

omit [DecidableEq Tid] [DecidableEq Addr] in
/-- When `enter_read` returns null it has left the section unless the image had no table. -/
theorem Refusal.left_iff {reading : Bool} (hr : Refusal reading l) : reading = false ↔ l.found ≠ some .tableless := by
  rcases hr with ⟨hf, hread⟩ | ⟨hf, hread⟩
  · simp [hf, hread]
  · simp [hf, hread]

/-- Over every run, a call of the handle that began outside any section, and whose callee left the
section alone, returns outside the section, with one invocation and no error or with no invocation
and an error of its own, exactly when its `enter_read`, if it got there, found an image with a table.
`enter_read`, that of the handle and that of an Object, returns null inside the section exactly when
it found an image without a table. A running call is never blocked and gets nearer to its end with
every access. -/
theorem call_disciplined_iff [Fintype Tid] {c : Config Tid (Shared Tid Addr) (Local Addr)}
    (hc : (calls Tid Addr h).Reachable Program.anyStep (start Tid Addr) c) (t : Tid) :
    ((c.locals t).pc = .idle .call → (c.locals t).undisturbed = true → (Disciplined c.shared t (c.locals t) ↔
      (c.locals t).found ≠ some .nothing ∧ (c.locals t).found ≠ some .tableless)) ∧
    (∀ v, (c.locals t).pc = .slowCheck v none →
      (c.shared.reading t = false ↔ (c.locals t).found ≠ some .tableless)) ∧
    ((c.locals t).pc = .idle (.table none) →
      (c.shared.reading t = false ↔ (c.locals t).found ≠ some .tableless)) ∧
    ((∀ d, (c.locals t).pc ≠ .idle d) → ∃ c', (calls Tid Addr h).next c t .run = some c' ∧
      (c'.locals t).pc.left < (c.locals t).pc.left) := by
  have hk := keeps_of_reachable hc t
  refine ⟨fun hpc hu => hk.disciplined_iff hpc hu, fun v hpc => ?_, fun hpc => ?_, fun hpc => ?_⟩
  · rw [Keeps, hpc] at hk
    exact hk.2.left_iff
  · rw [Keeps, hpc] at hk
    exact hk.left_iff
  · obtain ⟨hr, hh⟩ := rooted_of_reachable hc
    obtain ⟨sh', l', hs⟩ := run_enabled (h := h) hr (hh t) hpc
    refine ⟨_, Program.next_eq_some_iff.mpr ⟨sh', l', hs, rfl⟩, ?_⟩
    simpa using (moves_of_run hs).left

/-- Two names that fold to one hash. -/
def typy : CString := [116, 121, 112, 121]

def isgw : CString := [105, 115, 103, 119]

def typyHandle : Handle := ⟨true, typy, 3698225526, 0, 7⟩

def exporting (name : CString) (fn : UInt64) : Image :=
  ⟨some { count := 1, entries := [⟨name, 7, 0, fn, 3698225526⟩], counted := rfl }⟩

def loadAndCall (img : Image) : List (Unit × Action Nat) :=
  [((), .allocate 0 img), ((), .exchange (some 0)), ((), .setState .active), ((), .call)]

theorem call_disciplined_iff_slow : ∃ c : Config Unit (Shared Unit Nat) (Local Nat),
    (c.locals ()).invoked = [16] ∧ Disciplined c.shared () (c.locals ()) := by
  have hrun : (((calls Unit Nat typyHandle).exec Program.anyStep (start Unit Nat)
      (loadAndCall (exporting typy 16) ++ List.replicate 12 ((), .run))).map fun c => ((c.locals ()).pc,
        (c.locals ()).undisturbed, (c.locals ()).found, (c.locals ()).invoked)) =
      some (.idle .call, true, some .table, [16]) := by
    decide
  obtain ⟨c, hc, he⟩ := Option.map_eq_some_iff.mp hrun
  simp only [Prod.mk.injEq] at he
  obtain ⟨hpc, hu, hf, hi⟩ := he
  exact ⟨c, hi, ((call_disciplined_iff (.of_exec .init hc) ()).1 hpc hu).mpr (by simp [hf])⟩

/-- A module without a table getter: the call returns inside the section and reports nothing. -/
theorem call_leaves_section_open : ∃ c : Config Unit (Shared Unit Nat) (Local Nat),
    (calls Unit Nat typyHandle).Reachable Program.anyStep (start Unit Nat) c ∧ (c.locals ()).pc = .idle .call ∧
      (c.locals ()).undisturbed = true ∧ c.shared.reading () = true ∧ (c.locals ()).reported = false ∧
      ¬ Disciplined c.shared () (c.locals ()) := by
  have hrun : (((calls Unit Nat typyHandle).exec Program.anyStep (start Unit Nat)
      (loadAndCall ⟨none⟩ ++ List.replicate 9 ((), .run))).map fun c => ((c.locals ()).pc,
        (c.locals ()).undisturbed, c.shared.reading (), (c.locals ()).reported)) =
      some (.idle .call, true, true, false) := by
    decide
  obtain ⟨c, hc, he⟩ := Option.map_eq_some_iff.mp hrun
  simp only [Prod.mk.injEq] at he
  obtain ⟨hpc, hu, hread, hrep⟩ := he
  refine ⟨c, .of_exec .init hc, hpc, hu, hread, hrep, fun hd => ?_⟩
  exact absurd (hread.symm.trans hd.1) (by decide)

end Abix.DLL.Function
