import Abix.Concurrency.Program
import Mathlib.Data.Fintype.Basic

/-! The logging side channel: threads log while callbacks and the level are replaced. A step is one access
to a word of the state, and a callback runs without a lock. -/
namespace Abix.Util.Log
open Abix.Concurrency
variable {Tid S R : Type}

/-- Any byte may be passed as a level. -/
structure LogLevel where
  value : UInt8
  deriving DecidableEq, Repr

namespace LogLevel

def warning : LogLevel := ⟨2⟩

def error : LogLevel := ⟨3⟩

def off : LogLevel := ⟨4⟩

def normalize (level : LogLevel) : LogLevel := if level.value ≤ off.value then level else off

end LogLevel

/-- The words of a `LogState`. A null callback is `none`. -/
structure Words (S R : Type) where
  sink : Option S := none
  recordSink : Option R := none
  level : LogLevel := .warning
  deriving DecidableEq

def Words.enabled (w : Words S R) (level : LogLevel) : Bool :=
  level.value ≤ LogLevel.error.value ∧ w.level.value ≠ LogLevel.off.value ∧ w.level.value ≤ level.value

inductive Callback (S R : Type) where
  | sink (f : S)
  | recordSink (f : R)
  deriving DecidableEq

/-- The callback that the words name; the record sink goes first. -/
def Words.active (w : Words S R) : Option (Callback S R) :=
  match w.recordSink with
  | some f => some (.recordSink f)
  | none => w.sink.map .sink

def logBufferSize : Nat := 1024

/-- A sink is given the level and the message only. -/
structure LogRecord where
  level : LogLevel
  message : List UInt8
  length : UInt32
  truncated : Bool
  deriving DecidableEq

def record (level : LogLevel) (text : List UInt8) : LogRecord where
  level := level
  message := text.take (logBufferSize - 1)
  length := if logBufferSize ≤ text.length then UInt32.ofNat (logBufferSize - 1) else UInt32.ofNat text.length
  truncated := logBufferSize ≤ text.length

/-- A callback that ran, with the whole text and the words that were in force at some time in the call. -/
structure Delivery (S R : Type) where
  callback : Callback S R
  record : LogRecord
  text : List UInt8
  during : List (Words S R)

/-- What a thread's last call was: one that ran a callback, one that ran none although it had a text, or
anything else. -/
inductive Last (S R : Type) where
  | other
  | delivered
  | silent (level : LogLevel) (during : List (Words S R))

/-- Where a thread stands. The text is what `vsnprintf` makes of the format, unless it fails. -/
inductive Pc (S R : Type) where
  | idle (last : Last S R)
  | storeSink (sink : Option S)
  | storeRecordSink (sink : Option R)
  | loadLevel (level : LogLevel) (text : Option (List UInt8))
  | loadRecordSink (level : LogLevel) (text : Option (List UInt8))
  | loadSink (level : LogLevel) (text : Option (List UInt8))
  | dispatch (callback : Callback S R) (level : LogLevel) (text : Option (List UInt8))

/-- `seen` and `delivered` are history: the words since each thread's last call of `log` began, and the
callbacks that have run. -/
structure Shared (Tid S R : Type) where
  words : Words S R := {}
  seen : Tid → List (Words S R) := fun _ => []
  delivered : List (Delivery S R) := []

/-- A call, up to its first access, or the next access. A null format is `none`. -/
inductive Action (S R : Type) where
  | setLogSink (sink : Option S)
  | setLogRecordSink (sink : Option R)
  | setLogLevel (level : LogLevel)
  | log (level : LogLevel) (fmt : Option (Option (List UInt8)))
  | run

def Shared.store (sh : Shared Tid S R) (w : Words S R) : Shared Tid S R :=
  { sh with words := w, seen := fun t => w :: sh.seen t }

variable [DecidableEq Tid]

/-- A call of `log` sees the words from its start on. -/
def Shared.begin (sh : Shared Tid S R) (t : Tid) : Shared Tid S R :=
  { sh with seen := Function.update sh.seen t [sh.words] }

/-- The setters of a callback clear the other one with their first access. -/
def start (t : Tid) (sh : Shared Tid S R) : Action S R → Option (Shared Tid S R × Pc S R)
  | .setLogSink sink => some (sh.store { sh.words with recordSink := none }, .storeSink sink)
  | .setLogRecordSink sink => some (sh.store { sh.words with sink := none }, .storeRecordSink sink)
  | .setLogLevel level => some (sh.store { sh.words with level := level.normalize }, .idle .other)
  | .log _ none => some (sh, .idle .other)
  | .log level (some text) => some (sh.begin t, .loadLevel level text)
  | .run => none

/-- The next access of the running call; what a callback calls itself are further calls of its thread. -/
def run (t : Tid) (sh : Shared Tid S R) : Pc S R → Option (Shared Tid S R × Pc S R)
  | .idle _ => none
  | .storeSink sink => some (sh.store { sh.words with sink }, .idle .other)
  | .storeRecordSink sink => some (sh.store { sh.words with recordSink := sink }, .idle .other)
  | .loadLevel level text =>
    some (sh, if sh.words.enabled level then .loadRecordSink level text else .idle (.silent level (sh.seen t)))
  | .loadRecordSink level text =>
    match sh.words.recordSink with
    | some f => some (sh, .dispatch (.recordSink f) level text)
    | none => some (sh, .loadSink level text)
  | .loadSink level text =>
    match sh.words.sink with
    | some f => some (sh, .dispatch (.sink f) level text)
    | none => some (sh, .idle (.silent level (sh.seen t)))
  | .dispatch _ _ none => some (sh, .idle .other)
  | .dispatch callback level (some text) =>
    some ({ sh with delivered := ⟨callback, record level text, text, sh.seen t⟩ :: sh.delivered }, .idle .delivered)

def step (t : Tid) (sh : Shared Tid S R) : Pc S R → Action S R → Option (Shared Tid S R × Pc S R)
  | .idle _, a => start t sh a
  | pc, .run => run t sh pc
  | _, _ => none

def logging (Tid S R : Type) [DecidableEq Tid] : Program Tid (Shared Tid S R) (Pc S R) (Action S R) where
  step := step

def initial (Tid S R : Type) : Config Tid (Shared Tid S R) (Pc S R) := ⟨{}, fun _ => .idle .other⟩

def Pc.configuring : Pc S R → Bool
  | .storeSink _ | .storeRecordSink _ => true
  | _ => false

def Action.configures : Action S R → Bool
  | .setLogSink _ | .setLogRecordSink _ => true
  | _ => false

/-- No callback is set while another thread is setting one. -/
def Serialized (c : Config Tid (Shared Tid S R) (Pc S R)) (_ : Tid) (a : Action S R) : Prop :=
  a.configures = true → ∀ u, (c.locals u).configuring = false

instance [Fintype Tid] (c : Config Tid (Shared Tid S R) (Pc S R)) (t : Tid) (a : Action S R) :
    Decidable (Serialized c t a) :=
  inferInstanceAs (Decidable (a.configures = true → ∀ u, (c.locals u).configuring = false))

/-- What a call of `log` reads and decides, on the words as they are and as it has seen them. -/
inductive Loads (w : Words S R) (seen : List (Words S R)) : Pc S R → Pc S R → Prop
  | ignores (last) : Loads w seen (.idle last) (.idle .other)
  | enabled (level text) : w.enabled level = true → Loads w seen (.loadLevel level text) (.loadRecordSink level text)
  | disabled (level text) : w.enabled level = false →
      Loads w seen (.loadLevel level text) (.idle (.silent level seen))
  | namesRecordSink (level text f) : w.recordSink = some f →
      Loads w seen (.loadRecordSink level text) (.dispatch (.recordSink f) level text)
  | noRecordSink (level text) : w.recordSink = none →
      Loads w seen (.loadRecordSink level text) (.loadSink level text)
  | namesSink (level text f) : w.sink = some f → Loads w seen (.loadSink level text) (.dispatch (.sink f) level text)
  | noSink (level text) : w.sink = none → Loads w seen (.loadSink level text) (.idle (.silent level seen))
  | fails (callback level) : Loads w seen (.dispatch callback level none) (.idle .other)

inductive Moves (t : Tid) (sh : Shared Tid S R) : Pc S R → Action S R → Shared Tid S R → Pc S R → Prop
  | clearsRecordSink (last sink) : Moves t sh (.idle last) (.setLogSink sink)
      (sh.store { sh.words with recordSink := none }) (.storeSink sink)
  | clearsSink (last sink) : Moves t sh (.idle last) (.setLogRecordSink sink)
      (sh.store { sh.words with sink := none }) (.storeRecordSink sink)
  | setsLevel (last level) : Moves t sh (.idle last) (.setLogLevel level)
      (sh.store { sh.words with level := level.normalize }) (.idle .other)
  | setsSink (sink) : Moves t sh (.storeSink sink) .run (sh.store { sh.words with sink }) (.idle .other)
  | setsRecordSink (sink) : Moves t sh (.storeRecordSink sink) .run
      (sh.store { sh.words with recordSink := sink }) (.idle .other)
  | begins (last level text) : Moves t sh (.idle last) (.log level (some text)) (sh.begin t) (.loadLevel level text)
  | loads (pc a pc') : Loads sh.words (sh.seen t) pc pc' → Moves t sh pc a sh pc'
  | delivers (callback level text) : Moves t sh (.dispatch callback level (some text)) .run
      { sh with delivered := ⟨callback, record level text, text, sh.seen t⟩ :: sh.delivered } (.idle .delivered)

section Safety
variable {t u : Tid} {sh sh' : Shared Tid S R} {pc pc' : Pc S R} {a : Action S R} {w w' : Words S R}
  {seen : List (Words S R)} {c c' : Config Tid (Shared Tid S R) (Pc S R)}

theorem moves_of_start {last : Last S R} (h : start t sh a = some (sh', pc')) :
    Moves t sh (.idle last) a sh' pc' := by
  cases a with
  | setLogSink sink =>
    cases h
    exact .clearsRecordSink last sink
  | setLogRecordSink sink =>
    cases h
    exact .clearsSink last sink
  | setLogLevel level =>
    cases h
    exact .setsLevel last level
  | log level fmt =>
    cases fmt with
    | none =>
      cases h
      exact .loads _ _ _ (.ignores last)
    | some text =>
      cases h
      exact .begins last level text
  | run => cases h

theorem moves_of_run (h : run t sh pc = some (sh', pc')) : Moves t sh pc .run sh' pc' := by
  cases pc with
  | idle last => cases h
  | storeSink sink =>
    cases h
    exact .setsSink sink
  | storeRecordSink sink =>
    cases h
    exact .setsRecordSink sink
  | loadLevel level text =>
    cases h
    split
    · exact .loads _ _ _ (.enabled level text ‹_›)
    · exact .loads _ _ _ (.disabled level text (Bool.eq_false_iff.mpr ‹_›))
  | loadRecordSink level text =>
    simp only [run] at h
    split at h
    · cases h
      exact .loads _ _ _ (.namesRecordSink level text _ ‹_›)
    · cases h
      exact .loads _ _ _ (.noRecordSink level text ‹_›)
  | loadSink level text =>
    simp only [run] at h
    split at h
    · cases h
      exact .loads _ _ _ (.namesSink level text _ ‹_›)
    · cases h
      exact .loads _ _ _ (.noSink level text ‹_›)
  | dispatch callback level text =>
    cases text with
    | none =>
      cases h
      exact .loads _ _ _ (.fails callback level)
    | some text =>
      cases h
      exact .delivers callback level text

theorem moves_of_step (h : step t sh pc a = some (sh', pc')) : Moves t sh pc a sh' pc' := by
  cases pc with
  | idle last => exact moves_of_start h
  | _ =>
    cases a with
    | run => exact moves_of_run h
    | _ => cases h

def Pc.Prepared (w : Words S R) : Pc S R → Prop
  | .storeSink _ => w.recordSink = none
  | .storeRecordSink _ => w.sink = none
  | _ => True

/-- What a call of `log` has found so far, it found in words that it has seen. -/
def Pc.Witnessed (w : Words S R) (seen : List (Words S R)) : Pc S R → Prop
  | .loadLevel _ _ => w ∈ seen
  | .loadRecordSink level _ => w ∈ seen ∧ ∃ w ∈ seen, w.enabled level = true
  | .loadSink level _ => w ∈ seen ∧ (∃ w ∈ seen, w.enabled level = true) ∧ ∃ w ∈ seen, w.recordSink = none
  | .dispatch callback level _ => (∃ w ∈ seen, w.enabled level = true) ∧ ∃ w ∈ seen, w.active = some callback
  | .idle (.silent level during) =>
    (∃ w ∈ during, w.enabled level = false) ∨ (∃ w ∈ during, w.recordSink = none) ∧ ∃ w ∈ during, w.sink = none
  | _ => True

/-- The callback was the active one and the level was let through, each at some time in the call, and the
record is what is left of the text. -/
structure Delivery.Vouched (d : Delivery S R) : Prop where
  active : ∃ w ∈ d.during, w.active = some d.callback
  enabled : ∃ w ∈ d.during, w.enabled d.record.level = true
  record : d.record = Log.record d.record.level d.text

structure Sound (c : Config Tid (Shared Tid S R) (Pc S R)) : Prop where
  one : c.shared.words.sink = none ∨ c.shared.words.recordSink = none
  sole : ∀ u v, (c.locals u).configuring = true → (c.locals v).configuring = true → u = v
  prepared : ∀ u, (c.locals u).Prepared c.shared.words
  witnessed : ∀ u, (c.locals u).Witnessed c.shared.words (c.shared.seen u)
  delivered : ∀ d ∈ c.shared.delivered, d.Vouched

theorem exists_mem_cons {P : Words S R → Prop} (h : ∃ v ∈ seen, P v) : ∃ v ∈ w :: seen, P v :=
  h.imp fun _ hv => ⟨List.mem_cons_of_mem w hv.1, hv.2⟩

/-- A store is seen by every call, which loses nothing of what it has found. -/
theorem Pc.Witnessed.store (h : pc.Witnessed w seen) : pc.Witnessed w' (w' :: seen) := by
  cases pc with
  | idle last =>
    cases last with
    | silent level during => exact h
    | _ => trivial
  | loadLevel level text => exact List.mem_cons_self
  | loadRecordSink level text => exact ⟨List.mem_cons_self, exists_mem_cons h.2⟩
  | loadSink level text => exact ⟨List.mem_cons_self, exists_mem_cons h.2.1, exists_mem_cons h.2.2⟩
  | dispatch callback level text => exact ⟨exists_mem_cons h.1, exists_mem_cons h.2⟩
  | _ => trivial

theorem Pc.Witnessed.loads (h : pc.Witnessed w seen) (hone : w.sink = none ∨ w.recordSink = none)
    (hl : Loads w seen pc pc') : pc'.Witnessed w seen := by
  cases hl with
  | ignores last => trivial
  | enabled level text he => exact ⟨h, w, h, he⟩
  | disabled level text he => exact .inl ⟨w, h, he⟩
  | namesRecordSink level text f hf => exact ⟨h.2, w, h.1, by simp [Words.active, hf]⟩
  | noRecordSink level text hf => exact ⟨h.1, h.2, w, h.1, hf⟩
  | namesSink level text f hf =>
    have hrecord : w.recordSink = none := hone.resolve_left fun hn => by simp [hn] at hf
    exact ⟨h.2.1, w, h.1, by simp [Words.active, hrecord, hf]⟩
  | noSink level text hf => exact .inr ⟨h.2.2, w, h.1, hf⟩
  | fails callback level => trivial

theorem Pc.prepared_of_not_configuring (h : pc.configuring = false) : pc.Prepared w := by
  cases pc with
  | storeSink sink | storeRecordSink sink => cases h
  | _ => trivial

theorem Loads.configuring (h : Loads w seen pc pc') : pc'.configuring = false := by
  cases h <;> rfl

theorem sole_update (h : ∀ u v, (c.locals u).configuring = true → (c.locals v).configuring = true → u = v)
    (hpc : pc'.configuring = true → ∀ u, u ≠ t → (c.locals u).configuring = false) (u v : Tid)
    (hu : (Function.update c.locals t pc' u).configuring = true)
    (hv : (Function.update c.locals t pc' v).configuring = true) : u = v := by
  by_cases hut : u = t
  · subst hut
    by_cases hvt : v = u
    · exact hvt.symm
    · rw [Function.update_self] at hu
      rw [Function.update_of_ne hvt, hpc hu v hvt] at hv
      cases hv
  · by_cases hvt : v = t
    · subst hvt
      rw [Function.update_self] at hv
      rw [Function.update_of_ne hut, hpc hv u hut] at hu
      cases hu
    · rw [Function.update_of_ne hut] at hu
      rw [Function.update_of_ne hvt] at hv
      exact h u v hu hv

/-- A store by a thread that is then outside of `log`. -/
theorem Sound.stored (h : Sound c) (hone : w.sink = none ∨ w.recordSink = none)
    (hothers : ∀ u, u ≠ t → (c.locals u).Prepared w) (hpc : pc'.Prepared w) (hlog : ∀ seen, pc'.Witnessed w seen)
    (hsole : pc'.configuring = true → ∀ u, u ≠ t → (c.locals u).configuring = false) :
    Sound ⟨c.shared.store w, Function.update c.locals t pc'⟩ where
  one := hone
  sole := sole_update h.sole hsole
  prepared := (Function.forall_update_iff c.locals (p := fun _ pc => pc.Prepared w)).mpr ⟨hpc, hothers⟩
  witnessed := (Function.forall_update_iff c.locals (p := fun u pc => pc.Witnessed w (w :: c.shared.seen u))).mpr
    ⟨hlog _, fun u _ => (h.witnessed u).store⟩
  delivered := h.delivered

/-- A step of `log`, which leaves the words alone. -/
theorem Sound.logged (h : Sound c) (hwords : sh'.words = c.shared.words)
    (hseen : ∀ u, u ≠ t → sh'.seen u = c.shared.seen u) (hpc : pc'.configuring = false)
    (hlog : pc'.Witnessed c.shared.words (sh'.seen t)) (hdelivered : ∀ d ∈ sh'.delivered, d.Vouched) :
    Sound ⟨sh', Function.update c.locals t pc'⟩ where
  one := hwords ▸ h.one
  sole := sole_update h.sole fun hc => by simp [hpc] at hc
  prepared := (Function.forall_update_iff c.locals (p := fun _ pc => pc.Prepared sh'.words)).mpr
    ⟨Pc.prepared_of_not_configuring hpc, fun u _ => hwords ▸ h.prepared u⟩
  witnessed := (Function.forall_update_iff c.locals (p := fun u pc => pc.Witnessed sh'.words (sh'.seen u))).mpr
    ⟨hwords ▸ hlog, fun u hu => by rw [hwords, hseen u hu]; exact h.witnessed u⟩
  delivered := hdelivered

theorem Sound.next (h : Sound c) (hok : Serialized c t a) (hn : (logging Tid S R).next c t a = some c') :
    Sound c' := by
  obtain ⟨sh, pc', hstep, rfl⟩ := Program.next_eq_some_iff.mp hn
  have hmoves := moves_of_step hstep
  have hwitnessed := h.witnessed t
  have hprepared := h.prepared t
  have halone (hc : (c.locals t).configuring = true) (u : Tid) (hu : u ≠ t) : (c.locals u).configuring = false :=
    Bool.eq_false_iff.mpr fun hc' => hu (h.sole u t hc' hc)
  generalize hpc : c.locals t = pc at hmoves hwitnessed hprepared halone
  cases hmoves with
  | clearsRecordSink last sink =>
    exact h.stored (.inr rfl) (fun u _ => Pc.prepared_of_not_configuring (hok rfl u)) rfl (fun _ => trivial)
      fun _ u _ => hok rfl u
  | clearsSink last sink =>
    exact h.stored (.inl rfl) (fun u _ => Pc.prepared_of_not_configuring (hok rfl u)) rfl (fun _ => trivial)
      fun _ u _ => hok rfl u
  | setsLevel last level =>
    refine h.stored h.one (fun u _ => ?_) trivial (fun _ => trivial) fun hc => by cases hc
    have hu := h.prepared u
    cases hl : c.locals u <;> rw [hl] at hu <;> exact hu
  | setsSink sink =>
    exact h.stored (.inr hprepared) (fun u hu => Pc.prepared_of_not_configuring (halone rfl u hu)) trivial
      (fun _ => trivial) fun hc => by cases hc
  | setsRecordSink sink =>
    exact h.stored (.inl hprepared) (fun u hu => Pc.prepared_of_not_configuring (halone rfl u hu)) trivial
      (fun _ => trivial) fun hc => by cases hc
  | begins last level text =>
    refine h.logged rfl (fun u hu => Function.update_of_ne hu ..) rfl ?_ h.delivered
    show c.shared.words ∈ Function.update c.shared.seen t [c.shared.words] t
    rw [Function.update_self]
    exact List.mem_singleton_self _
  | loads pc a pc' hl => exact h.logged rfl (fun _ _ => rfl) hl.configuring (hwitnessed.loads h.one hl) h.delivered
  | delivers callback level text =>
    refine h.logged rfl (fun _ _ => rfl) rfl trivial fun d hd => ?_
    obtain rfl | hd := List.mem_cons.mp hd
    · exact ⟨hwitnessed.2, hwitnessed.1, rfl⟩
    · exact h.delivered d hd

omit [DecidableEq Tid] in
private theorem sound_initial : Sound (initial Tid S R) where
  one := .inl rfl
  sole _ _ hu := absurd hu Bool.false_ne_true
  prepared _ := trivial
  witnessed _ := trivial
  delivered _ hd := absurd hd List.not_mem_nil

theorem sound_of_reachable (h : (logging Tid S R).Reachable Serialized (initial Tid S R) c) : Sound c :=
  h.invariant (P := Sound) sound_initial fun _ _ _ _ hs hok hn => hs.next hok hn

omit [DecidableEq Tid] in
private theorem length_record (level : LogLevel) (text : List UInt8) :
    (record level text).length.toNat = (record level text).message.length := by
  have hsmall (n : Nat) (hn : n < logBufferSize) : (UInt32.ofNat n).toNat = n :=
    UInt32.toNat_ofNat_of_lt' (hn.trans (by decide))
  simp only [record, List.length_take]
  split
  · rename_i hlong
    rw [hsmall _ (by decide), Nat.min_eq_left ((Nat.sub_le ..).trans hlong)]
  · rename_i hshort
    have hlt : text.length < logBufferSize := Nat.not_le.mp hshort
    rw [hsmall _ hlt, Nat.min_eq_right (Nat.le_sub_one_of_lt hlt)]

/-- However many threads log, as long as no two set a callback at once: at most one callback is set at any
time; a callback that runs was the active one, with its level let through, while its call lasted; it is
given the text, or its first 1023 bytes and told so; and a call stays silent only if it has seen its level
held back or no callback of either kind. -/
theorem one_callback_at_a_time (h : (logging Tid S R).Reachable Serialized (initial Tid S R) c) :
    (c.shared.words.sink = none ∨ c.shared.words.recordSink = none) ∧
      (∀ d ∈ c.shared.delivered, (∃ w ∈ d.during, w.active = some d.callback) ∧
        (∃ w ∈ d.during, w.enabled d.record.level = true) ∧ d.record.message = d.text.take 1023 ∧
        d.record.length.toNat = d.record.message.length ∧
        (d.record.truncated = true ↔ d.record.message ≠ d.text)) ∧
      ∀ t level during, c.locals t = .idle (.silent level during) →
        (∃ w ∈ during, w.enabled level = false) ∨
          (∃ w ∈ during, w.recordSink = none) ∧ ∃ w ∈ during, w.sink = none := by
  have hs := sound_of_reachable h
  refine ⟨hs.one, fun d hd => ?_, fun t level during ht => ?_⟩
  · obtain ⟨hactive, henabled, hrecord⟩ := hs.delivered d hd
    refine ⟨hactive, henabled, ?_, ?_, ?_⟩
    · rw [hrecord]
      rfl
    · rw [hrecord]
      exact length_record _ _
    · rw [hrecord]
      show decide (logBufferSize ≤ d.text.length) = true ↔ d.text.take (logBufferSize - 1) ≠ d.text
      rw [decide_eq_true_iff, ne_eq, List.take_eq_self_iff, Nat.not_le]
      rfl
  · have hw := hs.witnessed t
    rw [ht] at hw
    exact hw

end Safety

/-- One thread logs while the other replaces a sink by a record sink. -/
def switching : List (Bool × Action Unit Unit) :=
  [(true, .setLogSink (some ())), (true, .run), (false, .log .error (some (some [104, 105]))), (false, .run),
    (true, .setLogRecordSink (some ())), (false, .run), (true, .run), (false, .run),
    (false, .log .error (some (some [104, 105]))), (false, .run), (false, .run), (false, .run)]

theorem one_callback_at_a_time_switching :
    ∃ c : Config Bool (Shared Bool Unit Unit) (Pc Unit Unit), c.shared.words.sink = none ∧
      ∃ d ∈ c.shared.delivered, ∃ w ∈ d.during, w.active = some d.callback := by
  have hrun : ((logging Bool Unit Unit).exec Serialized (initial Bool Unit Unit) switching).map
      (fun c => decide (c.shared.words.recordSink = some () ∧ c.shared.delivered.length = 1)) = some true := by
    decide
  obtain ⟨c, hc, hd⟩ := Option.map_eq_some_iff.mp hrun
  obtain ⟨hset, hlength⟩ := of_decide_eq_true hd
  obtain ⟨d, hdelivered⟩ := List.length_eq_one_iff.mp hlength
  obtain ⟨hone, hall, -⟩ := one_callback_at_a_time (.of_exec .init hc)
  have hmem : d ∈ c.shared.delivered := hdelivered ▸ List.mem_singleton_self d
  exact ⟨c, hone.resolve_right fun hn => by simp [hset] at hn, d, hmem, (hall d hmem).1⟩

/-- Two threads that set a callback at once can leave both kinds set. -/
example : ((logging Bool Unit Unit).exec Program.anyStep (initial Bool Unit Unit)
    [(true, .setLogSink (some ())), (false, .setLogRecordSink (some ())), (true, .run), (false, .run)]).map
      (·.shared.words) = some ⟨some (), some (), .warning⟩ := by decide

end Abix.Util.Log
