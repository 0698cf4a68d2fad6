import Dpll.CommandLine.Run
import Dpll.Host.Surroundings

/-! Programs that run in surroundings kept in memory. `CommandM.Prints` says what a program answers
and prints there; programs in sequence print one text after the other (`CommandM.Prints.bind`). All
that such a program changes besides its output are the log and what is left of the input.
`CommandM.Fails` says the same of a program that fails before it prints anything. -/

namespace Dpll

variable {α β : Type} {s s' s'' : Surroundings} {a : α} {b : β} {text text' : String} {p : Path}
  {bytes : List UInt8}

/-- What the surroundings `s'` have become when a text was printed in `s`. Only the log and the input
may have changed, too. -/
structure Surroundings.Shows (text : String) (s s' : Surroundings) : Prop where
  output : s'.output = s.output ++ text
  files : s'.files = s.files
  directory : s'.directory = s.directory
  verbosity : s'.verbosity = s.verbosity

namespace Surroundings

/-- What is read at a path: the bytes of the file, or those that a device gives. -/
def content (s : Surroundings) (p : Path) : Except Fault (List UInt8) :=
  (StateT.run (m := Id) (Host.readFile p) s).1

namespace Shows

theorem refl (s : Surroundings) : s.Shows "" s := ⟨String.append_empty.symm, rfl, rfl, rfl⟩

theorem trans (h : Shows text s s') (h' : Shows text' s' s'') : Shows (text ++ text') s s'' where
  output := by rw [h'.output, h.output, String.append_assoc]
  files := h'.files.trans h.files
  directory := h'.directory.trans h.directory
  verbosity := h'.verbosity.trans h.verbosity

theorem print (s : Surroundings) (text : String) :
    Shows text s { s with output := s.output ++ text } := ⟨rfl, rfl, rfl, rfl⟩

/-- Nothing is printed when the input is read or the log is written. -/
theorem silent (s : Surroundings) (input : List UInt8) (errors : String) :
    Shows "" s { s with input, errors } := ⟨String.append_empty.symm, rfl, rfl, rfl⟩

theorem readDevice (s : Surroundings) (d : Device) :
    Shows "" s ((Surroundings.readDevice d).run s).2 := by
  cases d with
  | input => exact silent s [] s.errors
  | null | full | output | errors => exact refl s

theorem readFile (s : Surroundings) (p : Path) :
    Shows "" s (StateT.run (m := Id) (Host.readFile p) s).2 := by
  dsimp only [StateT.run, Host.readFile]
  split
  · exact refl s
  · exact refl s
  · exact refl s
  · exact readDevice s _

theorem log (s : Surroundings) (entry : LogEntry) :
    Shows "" s (StateT.run (m := Id) (Host.log entry) s).2 := by
  dsimp only [StateT.run, Host.log]
  split
  · exact silent s s.input _
  · exact refl s

end Shows

end Surroundings

namespace CommandM

/-- The program answers `a` in the surroundings and prints the text. -/
def Prints (s : Surroundings) (x : CommandM (StateM Surroundings) α) (a : α) (text : String) :
    Prop :=
  ∃ s', StateT.run (ExceptT.run x) s = (.ok a, s') ∧ s.Shows text s'

theorem Prints.pure (s : Surroundings) (a : α) : Prints s (pure a) a "" := ⟨s, rfl, .refl s⟩

section

variable {x : CommandM (StateM Surroundings) α} {k : α → CommandM (StateM Surroundings) β}

theorem run_bind (hx : StateT.run (ExceptT.run x) s = (.ok a, s')) :
    StateT.run (ExceptT.run (x >>= k)) s = StateT.run (ExceptT.run (k a)) s' := by
  rw [ExceptT.run_bind, StateT.run_bind, hx]
  rfl

theorem Prints.bind_of_run (hx : StateT.run (ExceptT.run x) s = (.ok a, s')) (hs : s.Shows text s')
    (hk : Prints s' (k a) b text') : Prints s (x >>= k) b (text ++ text') := by
  obtain ⟨s'', hk, hs''⟩ := hk
  exact ⟨s'', (run_bind hx).trans hk, hs.trans hs''⟩

theorem Prints.bind (hx : Prints s x a text) (hk : ∀ s', s.Shows text s' → Prints s' (k a) b text') :
    Prints s (x >>= k) b (text ++ text') := by
  obtain ⟨s', hx, hs'⟩ := hx
  exact .bind_of_run hx hs' (hk s' hs')

/-- A program that prints nothing, and then another one. -/
theorem Prints.silent_bind (hx : Prints s x a "")
    (hk : ∀ s', s.Shows "" s' → Prints s' (k a) b text) : Prints s (x >>= k) b text := by
  rw [← String.empty_append (s := text)]
  exact hx.bind hk

/-- A program that leaves everything as it is, and then another one. -/
theorem Prints.bind_of_run_self (hx : StateT.run (ExceptT.run x) s = (.ok a, s))
    (hk : Prints s (k a) b text) : Prints s (x >>= k) b text := by
  rw [← String.empty_append (s := text)]
  exact .bind_of_run hx (.refl s) hk

theorem run_bind_error {e : Failure} (hx : StateT.run (ExceptT.run x) s = (.error e, s')) :
    StateT.run (ExceptT.run (x >>= k)) s = (.error e, s') := by
  rw [ExceptT.run_bind, StateT.run_bind, hx]
  rfl

/-- The program fails in the surroundings and has printed nothing. -/
def Fails (s : Surroundings) (x : CommandM (StateM Surroundings) α) (e : Failure) : Prop :=
  ∃ s', StateT.run (ExceptT.run x) s = (.error e, s') ∧ s.Shows "" s'

theorem Fails.throw (s : Surroundings) (e : Failure) :
    Fails s (throw e : CommandM (StateM Surroundings) α) e := ⟨s, rfl, .refl s⟩

theorem Fails.bind {e : Failure} (hx : Fails s x e) : Fails s (x >>= k) e := by
  obtain ⟨s', hx, hs'⟩ := hx
  exact ⟨s', run_bind_error hx, hs'⟩

/-- A program that prints nothing, and then one that fails. -/
theorem Fails.of_silent {e : Failure} (hx : Prints s x a "")
    (hk : ∀ s', s.Shows "" s' → Fails s' (k a) e) : Fails s (x >>= k) e := by
  obtain ⟨s', hx, hs'⟩ := hx
  obtain ⟨s'', hk, hs''⟩ := hk s' hs'
  exact ⟨s'', (run_bind hx).trans hk, hs'.trans hs''⟩

end

theorem run_ask {request : StateM Surroundings α} (h : request.run s = (a, s')) :
    StateT.run (ExceptT.run (ask request)) s = (.ok a, s') := by
  rw [ask, ExceptT.run_lift, StateT.run_map, h]
  rfl

theorem run_attempt {failure : Fault → Failure} {request : StateM Surroundings (Except Fault α)}
    (h : request.run s = (.ok a, s')) :
    StateT.run (ExceptT.run (attempt failure request)) s = (.ok a, s') := run_bind (run_ask h)

theorem Prints.ask {request : StateM Surroundings α} (h : request.run s = (a, s'))
    (hs : s.Shows text s') : Prints s (ask request) a text := ⟨s', run_ask h, hs⟩

theorem Prints.attempt {failure : Fault → Failure} {request : StateM Surroundings (Except Fault α)}
    (h : request.run s = (.ok a, s')) (hs : s.Shows "" s') :
    Prints s (attempt failure request) a "" := ⟨s', run_attempt h, hs⟩

theorem Fails.attempt {failure : Fault → Failure} {request : StateM Surroundings (Except Fault α)}
    {fault : Fault} (h : request.run s = (.error fault, s')) (hs : s.Shows "" s') :
    Fails s (attempt failure request) (failure fault) := ⟨s', run_bind (run_ask h), hs⟩

theorem prints_logAll (s : Surroundings) (entries : List LogEntry) :
    Prints s (logAll entries) () "" := by
  induction entries generalizing s with
  | nil => exact .pure s ()
  | cons entry entries ih => exact .silent_bind (.ask rfl (.log s entry)) fun s' _ => ih s'

/-- Time stands still. -/
theorem prints_clock (s : Surroundings) : Prints s (ask Host.clock) 0 "" := .ask rfl (.refl s)

theorem Prints.timed {x : CommandM (StateM Surroundings) α} (hx : Prints s x a text) :
    Prints s (timed x) (a, .between 0 0) text := by
  refine .bind_of_run_self rfl ?_
  rw [← String.append_empty (s := text)]
  exact hx.bind fun s' _ => (prints_clock s').silent_bind fun s' _ => .pure s' _

theorem Fails.timed {x : CommandM (StateM Surroundings) α} {e : Failure} (hx : Fails s x e) :
    Fails s (timed x) e := by
  obtain ⟨s', hx, hs'⟩ := hx
  exact ⟨s', (run_bind (run_ask rfl)).trans (run_bind_error hx), hs'⟩

end CommandM

end Dpll
