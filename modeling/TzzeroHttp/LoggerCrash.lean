import TzzeroHttp.LoggerRotation

/-! A process that dies while it logs and is started again. A file operation happens or does not,
but of a line any part may have reached the file; the next process appends to what it finds. -/
namespace TzzeroHttp.LoggerCrash
open ByteText LoggerModel LoggerRotation

def shiftTurns (base : Bytes) (maxFiles : ℤ) : ℕ → ℕ → Files → Files
  | turns + 1, i + 1, files => shiftTurns base maxFiles turns i (Logger.shiftFile base maxFiles (i + 1) files)
  | _, _, files => files

def moveOutput (base : Bytes) (files : Files) : Files :=
  if (files base).isSome then files.rename base (numbered base 1) else files

/-- The highest number that a rotation gives. -/
def top (c : Setup) : ℕ := (c.maxFiles - 1).toNat

/-- The files after the first `calls` file operations of a rotation, which are the turns of the
loop, the renaming of the output file and the creation of the new one. -/
def rotating (c : Setup) (calls : ℕ) (files : Files) : Files :=
  let files := shiftTurns c.base c.maxFiles calls (top c) files
  let files := if top c < calls then moveOutput c.base files else files
  if top c + 1 < calls then Function.update files c.base (some []) else files

/-- What a process leaves behind that dies in `emit`, with so many bytes of the line written and
so many operations of the rotation done. -/
def died (c : Setup) (l : Logger) (line : Bytes) (written calls : ℕ) : Files :=
  let files := Function.update l.files c.base
    (some ((l.files c.base).getD [] ++ (line ++ [lf]).take written))
  if line.length < written ∧ c.maxFileSize ≤ l.currentFileSize + (line.length + 1) then
    rotating c calls files
  else files

def restart (c : Setup) (files : Files) : Logger :=
  Logger.setOutputFile c.base
    { level := c.level, maxFileSize := c.maxFileSize, maxFiles := c.maxFiles, files := files }

inductive Event
  | log (call : Call)
  | crash (call : Call) (written calls : ℕ)

def step (c : Setup) (l : Logger) : Event → Logger
  | .log call => l.log call
  | .crash call written calls =>
    restart c (if call.Passes c.level then died c l call.logLine written calls else l.files)

def output (c : Setup) : Event → Bytes
  | .log call => if call.Passes c.level then call.logLine ++ [lf] else []
  | .crash call written _ => if call.Passes c.level then (call.logLine ++ [lf]).take written else []

variable {c : Setup} {l : Logger} {files files' : Files} {base stream : Bytes} {maxFiles : ℤ}

theorem shiftTurns_all {turns i : ℕ} (h : i ≤ turns) :
    shiftTurns base maxFiles turns i files = Logger.shiftFrom base maxFiles i files := by
  induction i generalizing turns files with
  | zero => cases turns <;> rfl
  | succ i ih =>
    obtain ⟨turns, rfl⟩ : ∃ t, turns = t + 1 := ⟨turns - 1, by omega⟩
    exact ih (by omega)

theorem rotating_all (h : Writes c l) (hbase : c.base ≠ []) {calls : ℕ} (hcalls : top c + 2 ≤ calls) :
    rotating c calls l.files = l.rotateLogFile.files := by
  have hturns : top c ≤ calls := by omega
  have hrename : top c < calls := by omega
  have hcreate : top c + 1 < calls := by omega
  simp only [rotating, if_pos hrename, if_pos hcreate, shiftTurns_all hturns, moveOutput]
  simp only [Logger.rotateLogFile, h.outputFile, h.maxFiles, top, if_neg hbase]
  rfl

theorem archive_congr {n : ℕ} (hbase : files' base = files base)
    (hfiles : ∀ k, 1 ≤ k → k ≤ n → files' (numbered base k) = files (numbered base k)) :
    archive files' base n = archive files base n := by
  induction n with
  | zero => simp only [archive, hbase]
  | succ n ih =>
    simp only [archive, hfiles (n + 1) (by omega) le_rfl]
    rw [ih fun k hk hkn => hfiles k hk (by omega)]

theorem archive_append (n : ℕ) (data : Bytes) :
    archive (Function.update files base (some ((files base).getD [] ++ data))) base n =
      archive files base n ++ data := by
  induction n with
  | zero => simp [archive]
  | succ n ih =>
    simp only [archive, Function.update_of_ne (numbered_ne_base base (n + 1)), ih, List.append_assoc]

/-- A file that moves up to a free number stays at its place. -/
theorem archive_move {n i : ℕ} (hi : 1 ≤ i) (hin : i < n) (hfree : files (numbered base (i + 1)) = none)
    (hup : files' (numbered base (i + 1)) = files (numbered base i)) (hleft : files' (numbered base i) = none)
    (hothers : ∀ name, name ≠ numbered base i → name ≠ numbered base (i + 1) → files' name = files name) :
    archive files' base n = archive files base n := by
  induction n with
  | zero => omega
  | succ n ih =>
    by_cases hlast : i = n
    · subst hlast
      obtain ⟨j, rfl⟩ : ∃ j, i = j + 1 := ⟨i - 1, by omega⟩
      have hbelow : archive files' base j = archive files base j := by
        refine archive_congr (hothers base ?_ ?_) fun k hk hkj => hothers _ ?_ ?_
        · exact (numbered_ne_base base _).symm
        · exact (numbered_ne_base base _).symm
        · exact numbered_ne (by omega)
        · exact numbered_ne (by omega)
      simp only [archive, hup, hleft, hfree, hbelow, Option.getD_none, List.nil_append]
    · have hhead : files' (numbered base (n + 1)) = files (numbered base (n + 1)) :=
        hothers _ (numbered_ne (by omega)) (numbered_ne (by omega))
      simp only [archive, hhead, ih (by omega)]

/-- The files hold the end of the stream, and those with a number are full. -/
structure Kept (c : Setup) (files : Files) (stream : Bytes) : Prop where
  suffix : archive files c.base (top c) <:+ stream
  full : ∀ k content, 1 ≤ k → files (numbered c.base k) = some content → c.maxFileSize ≤ content.length
  few : ∀ k : ℕ, c.maxFiles ≤ k → files (numbered c.base k) = none

theorem Kept.move (h : Kept c files stream) {i : ℕ} (hi : 1 ≤ i) (hin : i < top c)
    (hfree : files (numbered c.base (i + 1)) = none) :
    Kept c (Logger.shiftFile c.base c.maxFiles i files) stream ∧
      Logger.shiftFile c.base c.maxFiles i files (numbered c.base i) = none := by
  have htop : (i : ℤ) < c.maxFiles - 1 := by
    rw [top] at hin
    omega
  obtain ⟨hup, hleft, hothers⟩ := shiftFile_spec htop.ne hfree
  refine ⟨⟨?_, ?_, ?_⟩, hleft⟩
  · rw [archive_move hi hin hfree hup hleft hothers]
    exact h.suffix
  · intro k content hk hcontent
    by_cases hki : k = i
    · subst hki
      rw [hleft] at hcontent
      cases hcontent
    · by_cases hkn : k = i + 1
      · subst hkn
        rw [hup] at hcontent
        exact h.full i content hi hcontent
      · rw [hothers _ (numbered_ne hki) (numbered_ne hkn)] at hcontent
        exact h.full k content hk hcontent
  · intro k hk
    have hki : k ≠ i := by omega
    have hkn : k ≠ i + 1 := by omega
    rw [hothers _ (numbered_ne hki) (numbered_ne hkn)]
    exact h.few k hk

theorem Kept.turns (h : Kept c files stream) {i : ℕ} (hi : i < top c)
    (hfree : files (numbered c.base (i + 1)) = none) (turns : ℕ) :
    Kept c (shiftTurns c.base c.maxFiles turns i files) stream ∧
      (i ≤ turns → shiftTurns c.base c.maxFiles turns i files (numbered c.base 1) = none) := by
  induction i generalizing turns files with
  | zero => cases turns <;> exact ⟨h, fun _ => hfree⟩
  | succ i ih =>
    cases turns with
    | zero => exact ⟨h, fun hle => absurd hle (by omega)⟩
    | succ turns =>
      obtain ⟨hmoved, hleft⟩ := h.move (by omega) hi hfree
      obtain ⟨hkept, hfirst⟩ := ih hmoved (by omega) hleft turns
      exact ⟨hkept, fun hle => hfirst (by omega)⟩

/-- The turn that removes the oldest file. -/
theorem shiftFile_top (hmax : 2 ≤ c.maxFiles) :
    Logger.shiftFile c.base c.maxFiles (top c) files =
      Function.update files (numbered c.base (top c)) none := by
  have htop : ((top c : ℕ) : ℤ) = c.maxFiles - 1 := by
    rw [top]
    omega
  simp only [Logger.shiftFile, if_pos htop]
  split_ifs with hexists
  · rfl
  · have hnone : files (numbered c.base (top c)) = none := by simpa using hexists
    exact (Function.update_eq_self_iff.mpr hnone.symm).symm

theorem Kept.removeOldest (h : Kept c files stream) {n : ℕ} (hn : top c = n + 1) :
    Kept c (Function.update files (numbered c.base (n + 1)) none) stream := by
  have hothers : ∀ name, name ≠ numbered c.base (n + 1) →
      Function.update files (numbered c.base (n + 1)) none name = files name :=
    fun name hname => Function.update_of_ne hname _ _
  refine ⟨?_, ?_, ?_⟩
  · have hbelow : archive (Function.update files (numbered c.base (n + 1)) none) c.base n =
        archive files c.base n :=
      archive_congr (hothers _ (numbered_ne_base _ _).symm) fun k _ hkn => hothers _ (numbered_ne (by omega))
    have hold := h.suffix
    rw [hn, archive] at hold ⊢
    rw [hbelow, Function.update_self]
    exact (List.suffix_append _ _).trans hold
  · intro k content hk hcontent
    by_cases hkn : k = n + 1
    · subst hkn
      simp at hcontent
    · rw [hothers _ (numbered_ne hkn)] at hcontent
      exact h.full k content hk hcontent
  · intro k hk
    by_cases hkn : k = n + 1
    · subst hkn
      simp
    · rw [hothers _ (numbered_ne hkn)]
      exact h.few k hk

/-- The loop of a rotation, up to any turn. -/
theorem Kept.shift (h : Kept c files stream) (hmax : 2 ≤ c.maxFiles) (turns : ℕ) :
    Kept c (shiftTurns c.base c.maxFiles turns (top c) files) stream ∧
      (top c ≤ turns → shiftTurns c.base c.maxFiles turns (top c) files (numbered c.base 1) = none) := by
  obtain ⟨n, hn⟩ : ∃ n, top c = n + 1 := ⟨top c - 1, by rw [top]; omega⟩
  cases turns with
  | zero =>
    refine ⟨?_, fun hle => absurd hle (by omega)⟩
    rw [hn]
    exact h
  | succ turns =>
    have hoperation : Logger.shiftFile c.base c.maxFiles (n + 1) files =
        Function.update files (numbered c.base (n + 1)) none := by
      rw [← hn]
      exact shiftFile_top hmax
    rw [hn, shiftTurns, hoperation]
    obtain ⟨hkept, hfirst⟩ := (h.removeOldest hn).turns (i := n) (by omega) (by simp) turns
    exact ⟨hkept, fun hle => hfirst (by omega)⟩

theorem shiftTurns_output (turns i : ℕ) : shiftTurns base maxFiles turns i files base = files base := by
  induction i generalizing turns files with
  | zero => cases turns <;> rfl
  | succ i ih =>
    cases turns with
    | zero => rfl
    | succ turns =>
      have hbase : ∀ k, base ≠ numbered base k := fun k => (numbered_ne_base base k).symm
      have hturn : Logger.shiftFile base maxFiles (i + 1) files base = files base := by
        unfold Logger.shiftFile
        split_ifs
        · exact Function.update_of_ne (hbase _) _ _
        · exact rename_other (hbase _) (hbase _)
        · rfl
      exact (ih turns).trans hturn

theorem archive_rename {n : ℕ} (hfree : files (numbered base 1) = none) :
    archive (files.rename base (numbered base 1)) base (n + 1) = archive files base (n + 1) := by
  induction n with
  | zero =>
    simp only [archive, rename_new (numbered_ne_base base 1).symm, rename_old, hfree, Option.getD_none,
      List.append_nil, List.nil_append]
  | succ n ih =>
    rw [archive, ih, rename_other (numbered_ne_base base _) (numbered_ne (by omega))]
    rfl

theorem Kept.moveOutput (h : Kept c files stream) (hmax : 2 ≤ c.maxFiles)
    (hfree : files (numbered c.base 1) = none)
    (hfull : ∀ content, files c.base = some content → c.maxFileSize ≤ content.length) :
    Kept c (moveOutput c.base files) stream := by
  obtain ⟨n, hn⟩ : ∃ n, top c = n + 1 := ⟨top c - 1, by rw [top]; omega⟩
  unfold LoggerCrash.moveOutput
  split_ifs with hexists
  · have hlater : ∀ k, k ≠ 1 → files.rename c.base (numbered c.base 1) (numbered c.base k) =
        files (numbered c.base k) :=
      fun k hk => rename_other (numbered_ne_base c.base k) (numbered_ne hk)
    refine ⟨?_, ?_, ?_⟩
    · rw [hn, archive_rename hfree, ← hn]
      exact h.suffix
    · intro k content hk hcontent
      by_cases hone : k = 1
      · subst hone
        rw [rename_new (numbered_ne_base c.base 1).symm] at hcontent
        exact hfull content hcontent
      · rw [hlater k hone] at hcontent
        exact h.full k content hk hcontent
    · intro k hk
      rw [hlater k (by omega)]
      exact h.few k hk
  · exact h

/-- More bytes at the end of the output file, which may be new. -/
theorem Kept.append (h : Kept c files stream) (data : Bytes) :
    Kept c (Function.update files c.base (some ((files c.base).getD [] ++ data))) (stream ++ data) := by
  have hnumbered : ∀ k, Function.update files c.base (some ((files c.base).getD [] ++ data)) (numbered c.base k) =
      files (numbered c.base k) := fun k => Function.update_of_ne (numbered_ne_base c.base k) _ _
  refine ⟨?_, ?_, ?_⟩
  · rw [archive_append]
    obtain ⟨front, hfront⟩ := h.suffix
    exact ⟨front, by rw [← hfront, List.append_assoc]⟩
  · intro k content hk hcontent
    rw [hnumbered] at hcontent
    exact h.full k content hk hcontent
  · intro k hk
    rw [hnumbered]
    exact h.few k hk

theorem Kept.create (h : Kept c files stream) (hempty : (files c.base).getD [] = []) :
    Kept c (Function.update files c.base (some [])) stream := by
  have hnothing := h.append []
  rw [hempty, List.append_nil, List.append_nil] at hnothing
  exact hnothing

/-- A rotation of a full output file, up to any of its operations. -/
theorem Kept.rotating (h : Kept c files stream) (hmax : 2 ≤ c.maxFiles)
    (hfull : ∀ content, files c.base = some content → c.maxFileSize ≤ content.length) (calls : ℕ) :
    Kept c (rotating c calls files) stream := by
  obtain ⟨hshifted, hfirst⟩ := h.shift hmax calls
  have hmoved : top c < calls → Kept c
      (LoggerCrash.moveOutput c.base (shiftTurns c.base c.maxFiles calls (top c) files)) stream := by
    intro hcalls
    refine hshifted.moveOutput hmax (hfirst hcalls.le) fun content hcontent => ?_
    rw [shiftTurns_output] at hcontent
    exact hfull content hcontent
  have hgone : ∀ f : Files, (LoggerCrash.moveOutput c.base f c.base).getD [] = [] := by
    intro f
    unfold LoggerCrash.moveOutput
    split_ifs with hexists
    · rw [rename_old]
      rfl
    · have hnone : f c.base = none := by simpa using hexists
      rw [hnone]
      rfl
  unfold LoggerCrash.rotating
  simp only
  split_ifs with hcreate hrename hrename
  · exact (hmoved hrename).create (hgone _)
  · omega
  · exact hmoved hrename
  · exact hshifted

/-- What holds of the logger between two events. -/
structure Running (c : Setup) (l : Logger) (stream : Bytes) : Prop where
  writes : Writes c l
  kept : Kept c l.files stream
  size : ∃ content, l.files c.base = some content ∧ l.currentFileSize = content.length

theorem restart_running (h : Kept c files stream) (hbase : c.base ≠ []) :
    Running c (restart c files) stream := by
  have hopen : restart c files = {
      level := c.level, maxFileSize := c.maxFileSize, maxFiles := c.maxFiles, outputFile := c.base
      fileStream := some c.base, currentFileSize := ((files c.base).getD []).length
      files := Function.update files c.base (some ((files c.base).getD [])) } := by
    simp [restart, Logger.setOutputFile, hbase]
  have hnothing := h.append []
  rw [List.append_nil, List.append_nil] at hnothing
  rw [hopen]
  exact ⟨⟨rfl, rfl, rfl, rfl, rfl⟩, hnothing, _, Function.update_self _ _ _, rfl⟩

theorem died_kept (h : Running c l stream) (hmax : 2 ≤ c.maxFiles) (line : Bytes) (written calls : ℕ) :
    Kept c (died c l line written calls) (stream ++ (line ++ [lf]).take written) := by
  obtain ⟨content, hcontent, hsize⟩ := h.size
  have hwritten := h.kept.append ((line ++ [lf]).take written)
  unfold died
  simp only
  split_ifs with hfull
  · refine hwritten.rotating hmax (fun all hall => ?_) calls
    rw [Function.update_self, Option.some.injEq] at hall
    have hwhole : (line ++ [lf]).take written = line ++ [lf] :=
      List.take_of_length_le (by simpa using hfull.1)
    rw [hwhole, hcontent, Option.getD_some] at hall
    rw [← hall, List.length_append, List.length_append, List.length_singleton, ← hsize]
    exact hfull.2
  · exact hwritten

theorem written_running (h : Running c l stream) (line : Bytes) :
    Running c (written c.base l line) (stream ++ (line ++ [lf])) := by
  obtain ⟨content, hcontent, hsize⟩ := h.size
  have hfiles : (written c.base l line).files =
      Function.update l.files c.base (some ((l.files c.base).getD [] ++ (line ++ [lf]))) := by
    rw [written, List.append_assoc]
  refine ⟨⟨h.writes.level, h.writes.outputFile, h.writes.fileStream, h.writes.maxFileSize,
    h.writes.maxFiles⟩, ?_, content ++ (line ++ [lf]), ?_, ?_⟩
  · rw [hfiles]
    exact h.kept.append _
  · rw [hfiles, Function.update_self, hcontent, Option.getD_some]
  · simp [written, hsize]

theorem log_running (h : Running c l stream) (hbase : c.base ≠ []) (hmax : 2 ≤ c.maxFiles) (call : Call) :
    Running c (l.log call) (stream ++ output c (.log call)) := by
  simp only [Logger.log, output, h.writes.level]
  split_ifs with hpasses
  · have hwritten := written_running h call.logLine
    rw [emit_eq h.writes hbase]
    split_ifs with hfull
    · obtain ⟨content, hcontent, hsize⟩ := hwritten.size
      obtain ⟨hwrites, hzero⟩ := hwritten.writes.rotate hbase
      refine ⟨hwrites, ?_, [], ?_, hzero⟩
      · rw [← rotating_all hwritten.writes hbase le_rfl]
        refine hwritten.kept.rotating hmax (fun all hall => ?_) _
        rw [hcontent, Option.some.injEq] at hall
        rw [← hall, ← hsize]
        exact hfull
      · simp [Logger.rotateLogFile, hwritten.writes.outputFile, hbase]
    · exact hwritten
  · rw [List.append_nil]
    exact h

theorem step_running (h : Running c l stream) (hbase : c.base ≠ []) (hmax : 2 ≤ c.maxFiles) (e : Event) :
    Running c (step c l e) (stream ++ output c e) := by
  cases e with
  | log call => exact log_running h hbase hmax call
  | crash call written calls =>
    refine restart_running ?_ hbase
    simp only [output]
    split_ifs
    · exact died_kept h hmax call.logLine written calls
    · rw [List.append_nil]
      exact h.kept

theorem run_running (h : Running c l stream) (hbase : c.base ≠ []) (hmax : 2 ≤ c.maxFiles) (events : List Event) :
    Running c (events.foldl (step c) l) (stream ++ events.flatMap (output c)) := by
  induction events generalizing l stream with
  | nil =>
    rw [List.flatMap_nil, List.append_nil]
    exact h
  | cons e events ih =>
    rw [List.flatMap_cons, ← List.append_assoc]
    exact ih (step_running h hbase hmax e)

theorem start_running (hbase : c.base ≠ []) : Running c c.start [] := by
  have hnone : archive (fun _ => none) c.base (top c) = [] := by
    induction top c with
    | zero => rfl
    | succ n ih => exact ih
  refine restart_running ⟨?_, ?_, ?_⟩ hbase
  · rw [hnone]
  · intro k content _ hcontent
    cases hcontent
  · intro k _
    rfl

/-- Rotation survives crashes. After every sequence of log calls and of deaths of the process in
the middle of one, each followed by a new process: the files, from the oldest number to the output
file, hold the end of all that was ever written, in one piece and in order; the counted size is
that of the output file, every numbered file has reached the limit, and no number from the maximum
on exists. -/
theorem crashes_keep_suffix (c : Setup) (events : List Event) (hbase : c.base ≠ []) (hmax : 2 ≤ c.maxFiles) :
    let l := events.foldl (step c) c.start
    archive l.files c.base (c.maxFiles - 1).toNat <:+ events.flatMap (output c) ∧
      (∃ content, l.files c.base = some content ∧ l.currentFileSize = content.length) ∧
      (∀ k content, 1 ≤ k → l.files (numbered c.base k) = some content → c.maxFileSize ≤ content.length) ∧
      ∀ k : ℕ, c.maxFiles ≤ k → l.files (numbered c.base k) = none := by
  intro l
  obtain ⟨-, hkept, hsize⟩ := run_running (start_running hbase) hbase hmax events
  rw [List.nil_append] at hkept
  exact ⟨hkept.suffix, hsize, hkept.full, hkept.few⟩

/-- Lines of 26 bytes of which two fill a file: one process dies in the middle of a line, the next
one in a rotation, between the numbered file and the output file, which leaves a gap. -/
theorem crashes_keep_suffix_torn :
    let c : Setup := ⟨.info, ascii "log", 40, 4⟩
    let call := Call.log .warn (ascii "12:00") (ascii "disk full")
    let events := [.log call, .log call, .log call, .crash call 10 0, .crash call 26 3, .log call]
    let l := events.foldl (step c) c.start
    archive l.files c.base 3 <:+ events.flatMap (output c) ∧
      [3, 2, 1].map (fun k => (l.files (numbered c.base k)).map List.length) = [some 52, none, some 88] := by
  intro c call events l
  exact ⟨(crashes_keep_suffix c events (by decide) (by decide)).1, by decide +kernel⟩

end TzzeroHttp.LoggerCrash
