import Dpll.Proofs.CommandLine.Conversion

/-! Conversion is all or nothing. Everything that can be wrong with the input is found before the output
is opened (`CommandM.convert_cases`), so a conversion either fails and leaves all files and the standard
output as they were, or delivers the whole text, also if it replaces the file that it was read from
(`Command.convert_all_or_nothing`). -/

namespace Dpll

open CommandM

variable {s s' s'' : Surroundings} {o : Options} {input output : Option Path} {p : Path}
  {text : String} {fault : Fault} {bytes : List UInt8} {e : Encoding}

namespace Surroundings

/-- What is read is a formula, and its clauses are written as the text. -/
def Converts (s : Surroundings) (e : Encoding) (input : Option Path) (text : String) : Prop :=
  ∃ bytes cs tree, s.source input = .ok bytes ∧ Text.decode? bytes = some cs ∧
    NnfTree.read (String.ofList cs) = .ok tree ∧ text = (tree.toClauses e).toDimacs

/-- The device took the text, and nothing else was printed. -/
def Takes (s s' : Surroundings) (text : String) : Device → Prop
  | .null | .input => s'.output = s.output
  | .output => s'.output = s.output ++ text
  | .errors => s'.output = s.output ∧ ∃ log, s'.errors = log ++ text
  | .full => False

/-- The text was delivered as a whole: printed, as all that the file at the path holds, or to a device.
No other file has changed. -/
inductive Receives (s s' : Surroundings) (text : String) : Option Path → Prop
  | output (files : s'.files = s.files) (output : s'.output = s.output ++ text) :
      Receives s s' text none
  | file {p : Path} {l : Location} (target : s.files.target s.directory p = .ok l)
      (files : s'.files = s.files.put l (.file (Text.encode text)))
      (content : s'.content p = .ok (Text.encode text)) (output : s'.output = s.output) :
      Receives s s' text (some p)
  | device {p : Path} {l : Location} {d : Device} (target : s.files.target s.directory p = .ok l)
      (device : s.files.node? l = some (.device d)) (files : s'.files = s.files)
      (takes : s.Takes s' text d) : Receives s s' text (some p)

/-- No file can be created at the path, or what is there has no room for anything. -/
inductive Refuses (s : Surroundings) : Option Path → Prop
  | uncreatable {p : Path} {fault : Fault} (target : s.files.target s.directory p = .error fault) :
      Refuses s (some p)
  | full {p : Path} {l : Location} (target : s.files.target s.directory p = .ok l)
      (device : s.files.node? l = some (.device .full)) : Refuses s (some p)

theorem Takes.of_shows {d : Device} (hs : s.Shows "" s') (h : s'.Takes s'' text d) :
    s.Takes s'' text d := by
  have houtput : s'.output = s.output := hs.output.trans String.append_empty
  unfold Takes at h ⊢
  rwa [houtput] at h

theorem Receives.of_shows (hs : s.Shows "" s') (h : s'.Receives s'' text output) :
    s.Receives s'' text output := by
  have houtput : s'.output = s.output := hs.output.trans String.append_empty
  cases h with
  | output hfiles hout => exact .output (hfiles.trans hs.files) (houtput ▸ hout)
  | file htarget hfiles hcontent hout =>
    rw [hs.files, hs.directory] at htarget
    exact .file htarget (hs.files ▸ hfiles) hcontent (hout.trans houtput)
  | device htarget hdevice hfiles htakes =>
    rw [hs.files, hs.directory] at htarget
    exact .device htarget (hs.files ▸ hdevice) (hfiles.trans hs.files) (.of_shows hs htakes)

theorem Refuses.of_shows (hs : s.Shows "" s') (h : s'.Refuses output) : s.Refuses output := by
  cases h with
  | uncreatable htarget =>
    rw [hs.files, hs.directory] at htarget
    exact .uncreatable htarget
  | full htarget hdevice =>
    rw [hs.files, hs.directory] at htarget
    exact .full htarget (hs.files ▸ hdevice)

end Surroundings

namespace CommandM

open Surroundings

/-! ### Reading -/

/-- Reading changes nothing but what is left of the input. -/
theorem run_source (s : Surroundings) (input : Option Path) :
    ∃ s', StateT.run (m := Id) (match input with
      | some p => Host.readFile p
      | none => Host.readInput) s = (s.source input, s') ∧ s.Shows "" s' := by
  cases input with
  | some p => exact ⟨_, rfl, .readFile s p⟩
  | none => exact ⟨_, rfl, .silent s [] s.errors⟩

theorem fails_readText {request : StateM Surroundings (Except Fault (List UInt8))}
    {r : Except Fault (List UInt8)} (h : request.run s = (r, s')) (hs : s.Shows "" s')
    (hr : ∀ bytes cs, r = .ok bytes → Text.decode? bytes ≠ some cs) :
    ∃ failure, Fails s (readText request) failure := by
  unfold readText
  cases r with
  | error fault => exact ⟨_, .bind (.attempt h hs)⟩
  | ok bytes =>
    refine ⟨.inaccessible .invalidUtf8, .of_silent (.attempt h hs) fun s' _ => ?_⟩
    cases hdecode : Text.decode? bytes with
    | none => exact .throw s' _
    | some cs => exact absurd hdecode (hr bytes cs rfl)

theorem fails_encode {error : NnfError} (h : NnfTree.read text = .error error) :
    Fails s (encode o text) (.formula error) := by
  unfold encode ClausalForm.read
  rw [h]
  exact .throw s _

/-! ### Writing -/

theorem writeDevice_takes (s : Surroundings) (text : String) {d : Device} (hd : d ≠ .full) :
    ∃ s', (writeDevice text d).run s = (.ok (), s') ∧ s'.files = s.files ∧ s.Takes s' text d := by
  cases d with
  | full => exact absurd rfl hd
  | null | input | output => exact ⟨_, rfl, rfl, rfl⟩
  | errors => exact ⟨_, rfl, rfl, rfl, s.errors, rfl⟩

theorem run_appendFile_device {l : Location} {d : Device}
    (h : s.files.find s.directory p = .ok (l, .device d)) :
    StateT.run (m := Id) (Host.appendFile p text) s = (writeDevice text d).run s := by
  unfold StateT.run
  dsimp only [Host.appendFile]
  rw [h]
  rfl

theorem run_createFile_device {l : Location} {d : Device}
    (htarget : s.files.target s.directory p = .ok l) (hnode : s.files.node? l = some (.device d)) :
    StateT.run (m := Id) (Host.createFile p) s = (.ok (), s) := by
  have hcreate : s.files.create s.directory p = .ok s.files := by
    unfold FileTree.create
    rw [htarget]
    dsimp only
    rw [hnode]
  unfold StateT.run
  dsimp only [Host.createFile]
  rw [hcreate]

theorem run_createFile_error (h : s.files.target s.directory p = .error fault) :
    StateT.run (m := Id) (Host.createFile p) s = (.error fault, s) := by
  unfold StateT.run
  dsimp only [Host.createFile, FileTree.create]
  rw [h]

/-- A text is written as a whole or not at all. -/
theorem write_cases (s : Surroundings) (p : Path) (text : String) :
    let write : CommandM (StateM Surroundings) Unit := do
      attempt .inaccessible (Host.createFile p)
      attempt .inaccessible (Host.appendFile p text)
    (∃ s', StateT.run (ExceptT.run write) s = (.ok (), s') ∧ s.Receives s' text (some p)) ∨
      s.Refuses (some p) ∧ ∃ failure, Fails s write failure := by
  intro write
  cases htarget : s.files.target s.directory p with
  | error fault =>
    exact .inr ⟨.uncreatable htarget, _, .bind (.attempt (run_createFile_error htarget) (.refl s))⟩
  | ok l =>
    by_cases hnode : ∃ d, s.files.node? l = some (.device d)
    · obtain ⟨d, hd⟩ := hnode
      have hcreate : StateT.run (m := Id) (ExceptT.run (attempt .inaccessible (Host.createFile p) :
          CommandM (StateM Surroundings) Unit)) s = (.ok (), s) :=
        run_attempt (run_createFile_device htarget hd)
      have hfind : s.files.find s.directory p = .ok (l, .device d) := by
        rw [FileTree.find, (FileTree.locate_of_target htarget).1]
        dsimp only
        rw [hd]
      have happend : StateT.run (m := Id) (Host.appendFile p text) s = (writeDevice text d).run s :=
        run_appendFile_device hfind
      by_cases hfull : d = .full
      · subst hfull
        obtain ⟨s', hfailed, hs'⟩ : Fails s (attempt .inaccessible (Host.appendFile p text)) _ :=
          .attempt happend (.refl s)
        exact .inr ⟨.full htarget hd, _, s', (run_bind hcreate).trans hfailed, hs'⟩
      · obtain ⟨s', hwrite, hfiles, htakes⟩ := writeDevice_takes s text hfull
        exact .inl ⟨s', (run_bind hcreate).trans (run_attempt (happend.trans hwrite)),
          .device htarget hd hfiles htakes⟩
    · obtain ⟨hrun, hcontent⟩ := run_write htarget (not_exists.mp hnode)
      exact .inl ⟨_, hrun, .file htarget rfl hcontent rfl⟩

/-- A conversion delivers the text, or it fails and has printed and written nothing. -/
theorem convert_cases (s : Surroundings) (o : Options) (input output : Option Path) :
    let conversion : CommandM (StateM Surroundings) Unit := convert o input output
    (∃ text s', StateT.run (ExceptT.run conversion) s = (.ok (), s') ∧
      s.Converts o.encoding input text ∧ s.Receives s' text output) ∨
    ((∀ text, ¬s.Converts o.encoding input text) ∨ s.Refuses output) ∧
      ∃ failure, Fails s conversion failure := by
  intro conversion
  obtain ⟨s₁, hsource, hs₁⟩ := run_source s input
  by_cases htext : ∃ bytes cs, s.source input = .ok bytes ∧ Text.decode? bytes = some cs
  · obtain ⟨bytes, cs, hbytes, hdecode⟩ := htext
    have hread := prints_readSource hbytes hdecode
    cases htree : NnfTree.read (String.ofList cs) with
    | error error =>
      refine .inr ⟨.inl ?_, _, .of_silent hread fun s' _ => .bind (fails_encode htree)⟩
      rintro text ⟨bytes', cs', tree, hbytes', hdecode', htree', -⟩
      obtain rfl := Except.ok.inj (hbytes.symm.trans hbytes')
      obtain rfl := Option.some.inj (hdecode.symm.trans hdecode')
      cases htree.symm.trans htree'
    | ok tree =>
      have hconverts : s.Converts o.encoding input (tree.toClauses o.encoding).toDimacs :=
        ⟨bytes, cs, tree, hbytes, hdecode, htree, rfl⟩
      obtain ⟨s₁, hrun₁, hs₁⟩ := hread
      obtain ⟨s₂, hrun₂, hs₂⟩ := prints_encode (o := o) (s := s₁) htree
      have hs : s.Shows "" s₂ := hs₁.trans hs₂
      cases output with
      | none =>
        refine .inl ⟨_, _, (run_bind hrun₁).trans ((run_bind hrun₂).trans (run_ask rfl)), hconverts, ?_⟩
        exact .of_shows hs (.output rfl rfl)
      | some p =>
        rcases write_cases s₂ p (tree.toClauses o.encoding).toDimacs with
          ⟨s₃, hrun₃, hreceives⟩ | ⟨hrefuses, failure, s₃, hrun₃, hs₃⟩
        · exact .inl ⟨_, s₃, (run_bind hrun₁).trans ((run_bind hrun₂).trans hrun₃), hconverts,
            .of_shows hs hreceives⟩
        · exact .inr ⟨.inr (.of_shows hs hrefuses), failure, s₃,
            (run_bind hrun₁).trans ((run_bind hrun₂).trans hrun₃), hs.trans hs₃⟩
  · obtain ⟨failure, hfails⟩ := fails_readText hsource hs₁ fun bytes cs hbytes hdecode =>
      htext ⟨bytes, cs, hbytes, hdecode⟩
    refine .inr ⟨.inl ?_, failure, .bind hfails⟩
    rintro text ⟨bytes, cs, -, hbytes, hdecode, -⟩
    exact htext ⟨bytes, cs, hbytes, hdecode⟩

end CommandM

namespace Command

variable {c : Command}

/-- A command that fails without a trace has the exit code `1`. -/
theorem run_of_fails {failure : Failure} (h : Fails s (c.program o) failure) :
    ∃ s', StateT.run (m := Id) (c.run o) s = (1, s') ∧ s.Shows "" s' := by
  obtain ⟨s', hrun, hs'⟩ := h
  obtain ⟨s'', hrun, hs''⟩ := run_of_failure hrun
  exact ⟨s'', hrun, hs'.trans hs''⟩

/-- Every conversion ends in one of two ways. Either the text of the encoded formula, as the input was
before, is delivered as a whole; or no file is created or changed and nothing is printed, because there
is no formula to be read or no room for what would be written. -/
theorem convert_all_or_nothing (s : Surroundings) (o : Options) (input output : Option Path) :
    ∃ code s', StateT.run (m := Id) ((convert input output).run o) s = (code, s') ∧
      (code = 0 ∧ (∃ text, s.Converts o.encoding input text ∧ s.Receives s' text output) ∨
        code = 1 ∧ s'.files = s.files ∧ s'.output = s.output ∧
          ((∀ text, ¬s.Converts o.encoding input text) ∨ s.Refuses output)) := by
  rcases convert_cases s o input output with
    ⟨text, s', hrun, hconverts, hreceives⟩ | ⟨hcause, failure, hfails⟩
  · exact ⟨0, s', run_of_program hrun, .inl ⟨rfl, text, hconverts, hreceives⟩⟩
  · obtain ⟨s', hrun, hs⟩ := run_of_fails (c := convert input output) hfails
    exact ⟨1, s', hrun, .inr ⟨rfl, hs.files, hs.output.trans String.append_empty, hcause⟩⟩

end Command

end Dpll
