import TzzeroHttp.LoggerRotation
import TzzeroHttp.Runs

/-! How many log files there are. The numbered files of one base name are always numbered from one
without a gap; a rotation adds a number as long as the setting leaves room for it, and one that
lowers the setting, or allows a single file only, leaves more files than the setting says. -/
namespace TzzeroHttp.LoggerFileCount
open ByteText LoggerModel LoggerRotation Runs

inductive Op
  | log (call : Call)
  | setMaxFiles (n : ℤ)
  | setOutputFile

variable {base : Bytes}

def step (base : Bytes) (l : Logger) : Op → Option Logger
  | .log call => some (l.log call)
  | .setMaxFiles n => if 1 ≤ n then some (l.setMaxFiles n) else none
  | .setOutputFile => some (l.setOutputFile base)

def Rotates (l : Logger) : Op → Prop
  | .log call =>
    call.Passes l.level ∧ l.fileStream ≠ none ∧ l.outputFile ≠ [] ∧
      l.maxFileSize ≤ l.currentFileSize + (call.logLine.length + 1)
  | _ => False

def logFiles (base : Bytes) (files : Files) : Set Bytes :=
  {name | (name = base ∨ ∃ k, 1 ≤ k ∧ name = numbered base k) ∧ (files name).isSome}

/-- If the call rotates, then at most `max_files_` log files exist right after it. -/
def RotationWithin (base : Bytes) (l : Logger) (op : Op) : Prop :=
  Rotates l op → ∀ l' ∈ step base l op, (logFiles base l'.files).encard ≤ l'.maxFiles.toNat

/-- The setting leaves room for a numbered file, and no file has a number it leaves no room for. -/
def Roomy (base : Bytes) (l : Logger) : Prop :=
  2 ≤ l.maxFiles ∧ ∀ k : ℕ, l.maxFiles ≤ k → l.files (numbered base k) = none

/-- The numbered files are those from one to `h`. -/
def NumberedTo (base : Bytes) (files : Files) (h : ℕ) : Prop :=
  ∀ k, 1 ≤ k → ((files (numbered base k)).isSome ↔ k ≤ h)

/-- The log files are the output file and those numbered from one to `h`. -/
theorem encard_logFiles {files : Files} {h : ℕ} (hbase : (files base).isSome)
    (hnumbered : NumberedTo base files h) : (logFiles base files).encard = h + 1 := by
  have hset : logFiles base files = insert base (numbered base '' Set.Icc 1 h) := by
    ext name
    simp only [logFiles, Set.mem_ofPred_eq, Set.mem_insert_iff, Set.mem_image, Set.mem_Icc]
    constructor
    · rintro ⟨rfl | ⟨k, hk, rfl⟩, hsome⟩
      · exact .inl rfl
      · exact .inr ⟨k, ⟨hk, (hnumbered k hk).mp hsome⟩, rfl⟩
    · rintro (rfl | ⟨k, ⟨hk, hkh⟩, rfl⟩)
      · exact ⟨.inl rfl, hbase⟩
      · exact ⟨.inr ⟨k, hk, rfl⟩, (hnumbered k hk).mpr hkh⟩
  have hnot : base ∉ numbered base '' Set.Icc 1 h := by
    rintro ⟨k, -, hk⟩
    exact numbered_ne_base base k hk
  have hcard : (Set.Icc 1 h).encard = h := by
    rw [← Finset.coe_Icc, Set.encard_coe_eq_coe_finsetCard, Nat.card_Icc]
    simp
  rw [hset, Set.encard_insert_of_notMem hnot, (numbered_injective base).injOn.encard_image, hcard]

/-- The highest number in use after a rotation. -/
def rotatedTop (maxFiles : ℤ) (h : ℕ) : ℕ := max (max 1 h) (min (h + 1) (maxFiles - 1).toNat)

/-- With room for one file only the loop has no turn: the output file replaces number one. -/
theorem rotateLogFile_single {l : Logger} (hmax : l.maxFiles = 1) (hbase : l.outputFile ≠ [])
    (hexists : (l.files l.outputFile).isSome) :
    let rotated := l.rotateLogFile.files
    rotated l.outputFile = some [] ∧ rotated (numbered l.outputFile 1) = l.files l.outputFile ∧
      ∀ k, 2 ≤ k → rotated (numbered l.outputFile k) = l.files (numbered l.outputFile k) := by
  have hne : ∀ k, numbered l.outputFile k ≠ l.outputFile := numbered_ne_base l.outputFile
  have hturns : (l.maxFiles - 1).toNat = 0 := by omega
  simp only [Logger.rotateLogFile, if_neg hbase, hturns, Logger.shiftFrom, if_pos hexists]
  refine ⟨by simp, ?_, fun k hk => ?_⟩
  · rw [Function.update_of_ne (hne 1), rename_new (hne 1).symm]
  · rw [Function.update_of_ne (hne k), rename_other (hne k) (numbered_ne (by omega))]

theorem rotateLogFile_numberedTo {l : Logger} {h : ℕ} (hmax : 1 ≤ l.maxFiles)
    (hbase : l.outputFile ≠ []) (hexists : (l.files l.outputFile).isSome)
    (hnumbered : NumberedTo l.outputFile l.files h) :
    NumberedTo l.outputFile l.rotateLogFile.files (rotatedTop l.maxFiles h) := by
  intro k hk
  unfold rotatedTop
  by_cases hone : l.maxFiles = 1
  · obtain ⟨-, hfirst, hothers⟩ := rotateLogFile_single hone hbase hexists
    by_cases hk1 : k = 1
    · subst hk1
      simp [hfirst, hexists]
    · rw [hothers k (by omega), hnumbered k hk]
      omega
  · have hmax2 : 2 ≤ l.maxFiles := by omega
    obtain ⟨-, hfirst, hmoved, hbeyond⟩ := rotateLogFile_files hmax2 hbase hexists
    by_cases hk1 : k = 1
    · subst hk1
      simp [hfirst, hexists]
    · by_cases hkm : (k : ℤ) < l.maxFiles
      · obtain ⟨j, rfl⟩ : ∃ j, k = j + 1 := ⟨k - 1, by omega⟩
        rw [hmoved j (by omega) (by push_cast at hkm; omega), hnumbered j (by omega)]
        omega
      · rw [hbeyond k hk (by omega), hnumbered k hk]
        omega

/-- The logger writes no file or `base`, and the numbered files have no gap. -/
structure Tidy (base : Bytes) (l : Logger) : Prop where
  positive : 1 ≤ l.maxFiles
  stream : l.fileStream = none ∨
    l.fileStream = some base ∧ l.outputFile = base ∧ base ≠ [] ∧ (l.files base).isSome
  numbered : ∃ h, NumberedTo base l.files h

/-- A logger that has been given no output file, with no log files of this name. -/
structure Fresh (base : Bytes) (l : Logger) : Prop where
  positive : 1 ≤ l.maxFiles
  stream : l.fileStream = none
  noFile : logFiles base l.files = ∅

theorem Fresh.tidy {l : Logger} (h : Fresh base l) : Tidy base l := by
  refine ⟨h.positive, .inl h.stream, 0, fun k hk => ?_⟩
  have hnot : numbered base k ∉ logFiles base l.files := by simp [h.noFile]
  have hnone : ¬ (l.files (numbered base k)).isSome := fun hsome =>
    hnot ⟨.inr ⟨k, hk, rfl⟩, hsome⟩
  simp [hnone]
  omega

variable {l l' : Logger}

theorem written_numberedTo (line : Bytes) (h : ℕ) :
    NumberedTo base (written base l line).files h ↔ NumberedTo base l.files h := by
  have hsame : ∀ k, (written base l line).files (numbered base k) = l.files (numbered base k) :=
    fun k => Function.update_of_ne (numbered_ne_base base k) _ _
  simp only [NumberedTo, hsame]

theorem emit_writing (hbase : base ≠ []) (hstream : l.fileStream = some base)
    (houtput : l.outputFile = base) (line : Bytes) :
    l.emit line = if l.maxFileSize ≤ l.currentFileSize + (line.length + 1)
      then (written base l line).rotateLogFile else written base l line :=
  emit_eq (c := ⟨l.level, base, l.maxFileSize, l.maxFiles⟩) ⟨rfl, houtput, hstream, rfl, rfl⟩ hbase line

theorem log_rotates (h : Tidy base l) {call : Call} (hrotates : Rotates l (.log call)) :
    base ≠ [] ∧ l.outputFile = base ∧ l.log call = (written base l call.logLine).rotateLogFile := by
  obtain ⟨hpasses, hopen, -, hfull⟩ := hrotates
  obtain ⟨hstream, houtput, hbase, -⟩ := h.stream.resolve_left hopen
  refine ⟨hbase, houtput, ?_⟩
  rw [Logger.log, if_pos hpasses, emit_writing hbase hstream houtput, if_pos hfull]

/-- A call that does not rotate touches the output file only. -/
theorem log_not_rotates (h : Tidy base l) {call : Call}
    (hrotates : ¬ Rotates l (.log call)) : Tidy base (l.log call) := by
  obtain ⟨top, htop⟩ := h.numbered
  unfold Logger.log
  split_ifs with hpasses
  · rcases h.stream with hclosed | ⟨hstream, houtput, hbase, hfile⟩
    · refine ⟨?_, .inl ?_, top, ?_⟩ <;> simp only [Logger.emit, hclosed]
      · exact h.positive
      · exact htop
    · have hroom : ¬ l.maxFileSize ≤ l.currentFileSize + (call.logLine.length + 1) := fun hfull =>
        hrotates ⟨hpasses, by simp [hstream], by simpa [houtput] using hbase, hfull⟩
      rw [emit_writing hbase hstream houtput, if_neg hroom]
      exact ⟨h.positive, .inr ⟨hstream, houtput, hbase, by simp [written]⟩, top,
        (written_numberedTo _ top).mpr htop⟩
  · exact h

theorem rotate_tidy (h : Tidy base l) (hbase : base ≠ []) (houtput : l.outputFile = base)
    (line : Bytes) {top : ℕ} (htop : NumberedTo base l.files top) :
    let rotated := (written base l line).rotateLogFile
    rotated.maxFiles = l.maxFiles ∧ (rotated.files base).isSome ∧
      NumberedTo base rotated.files (rotatedTop l.maxFiles top) ∧ Tidy base rotated := by
  intro rotated
  subst houtput
  have hnumbered : NumberedTo l.outputFile rotated.files (rotatedTop l.maxFiles top) :=
    rotateLogFile_numberedTo (l := written l.outputFile l line) h.positive hbase (by simp [written])
      ((written_numberedTo line top).mpr htop)
  have hrotated : rotated.maxFiles = l.maxFiles ∧ rotated.outputFile = l.outputFile ∧
      rotated.fileStream = some l.outputFile ∧ rotated.files l.outputFile = some [] := by
    have hnot : (written l.outputFile l line).outputFile ≠ [] := hbase
    simp only [rotated, Logger.rotateLogFile, if_neg hnot]
    exact ⟨rfl, rfl, rfl, Function.update_self _ _ _⟩
  obtain ⟨hmax, hout, hstream, hfile⟩ := hrotated
  have hsome : (rotated.files l.outputFile).isSome := by simp [hfile]
  exact ⟨hmax, hsome, hnumbered, by rw [hmax]; exact h.positive, .inr ⟨hstream, hout, hbase, hsome⟩, _,
    hnumbered⟩

theorem setOutputFile_tidy (h : Tidy base l) : Tidy base (l.setOutputFile base) := by
  obtain ⟨top, htop⟩ := h.numbered
  unfold Logger.setOutputFile
  split_ifs with hempty
  · exact ⟨h.positive, .inl rfl, top, htop⟩
  · refine ⟨h.positive, .inr ⟨rfl, rfl, hempty, by simp⟩, top, fun k hk => ?_⟩
    have hsame := Function.update_of_ne (numbered_ne_base base k) (some ((l.files base).getD [])) l.files
    simp only [← htop k hk, hsame]

theorem step_tidy {op : Op} (h : Tidy base l) (hstep : step base l op = some l') :
    Tidy base l' := by
  cases op with
  | log call =>
    obtain rfl := Option.some.inj hstep
    by_cases hrotates : Rotates l (.log call)
    · obtain ⟨hbase, houtput, hlog⟩ := log_rotates h hrotates
      obtain ⟨top, htop⟩ := h.numbered
      rw [hlog]
      exact (rotate_tidy h hbase houtput _ htop).2.2.2
    · exact log_not_rotates h hrotates
  | setMaxFiles n =>
    obtain ⟨hn, rfl⟩ := guard_eq_some hstep
    exact ⟨hn, h.stream, h.numbered⟩
  | setOutputFile =>
    obtain rfl := Option.some.inj hstep
    exact setOutputFile_tidy h

/-- The bound after a rotation, by the highest number in use before it. -/
theorem rotatedTop_within (maxFiles : ℤ) (top : ℕ) :
    rotatedTop maxFiles top + 1 ≤ maxFiles.toNat ↔ 2 ≤ maxFiles ∧ (top : ℤ) < maxFiles := by
  unfold rotatedTop
  omega

theorem roomy_iff {top : ℕ} (htop : NumberedTo base l.files top) :
    Roomy base l ↔ 2 ≤ l.maxFiles ∧ (top : ℤ) < l.maxFiles := by
  have hnone : ∀ k, 1 ≤ k → (l.files (numbered base k) = none ↔ ¬ k ≤ top) := fun k hk => by
    rw [← htop k hk, Bool.not_eq_true, Option.isSome_eq_false_iff, Option.isNone_iff_eq_none]
  refine and_congr_right fun hmax2 => ?_
  constructor
  · intro h
    by_contra hle
    have htop1 : 1 ≤ top := by omega
    exact (hnone top htop1).mp (h top (by omega)) le_rfl
  · intro hlt k hk
    exact (hnone k (by omega)).mpr (by omega)

theorem rotationWithin_iff {op : Op} (h : Tidy base l) :
    RotationWithin base l op ↔ (Rotates l op → Roomy base l) := by
  refine imp_congr_right fun hrotates => ?_
  cases op with
  | log call =>
    obtain ⟨hbase, houtput, hlog⟩ := log_rotates h hrotates
    obtain ⟨top, htop⟩ := h.numbered
    obtain ⟨hmax, hfile, hnumbered, -⟩ := rotate_tidy h hbase houtput call.logLine htop
    rw [roomy_iff htop, ← rotatedTop_within]
    simp only [step, Option.mem_some_iff, forall_eq', hlog, hmax, encard_logFiles hfile hnumbered]
    norm_cast
  | setMaxFiles n => exact absurd hrotates id
  | setOutputFile => exact absurd hrotates id

/-- In every run on one base name that starts without log files, every rotation leaves at most
`max_files_` files exactly when every rotation finds `max_files_` to be at least two and no file
with a number from `max_files_` on. -/
theorem rotations_within_iff_roomy (base : Bytes) (l l' : Logger) (ops : List Op)
    (hfresh : Fresh base l) (hrun : run (step base) l ops = some l') :
    Guarded (step base) (RotationWithin base) l ops ↔
      Guarded (step base) (fun l op => Rotates l op → Roomy base l) l ops :=
  guarded_iff (fun _ _ _ => step_tidy) (fun _ _ _ h _ => rotationWithin_iff h) hfresh.tidy hrun

theorem fresh_empty (base : Bytes) (maxFileSize : ℕ) : Fresh base { maxFileSize := maxFileSize } :=
  ⟨by norm_num, rfl, by simp [logFiles]⟩

/-- One line that reaches the limit, with the setting the logger starts with. -/
theorem rotations_within_iff_roomy_default :
    let ops := [.setOutputFile, .log (.log .warn (ascii "12:00") (ascii "disk full"))]
    Guarded (step (ascii "log")) (RotationWithin (ascii "log")) { maxFileSize := 20 } ops := by
  intro ops
  refine (rotations_within_iff_roomy (ascii "log") _ _ ops (fresh_empty _ 20) rfl).mpr ?_
  refine ⟨fun h => absurd h id, fun l hl => ⟨fun _ => ?_, fun _ _ => trivial⟩⟩
  obtain rfl := Option.some.inj hl
  exact ⟨by decide, fun k _ =>
    Function.update_of_ne (numbered_ne_base (ascii "log") k) (some []) fun _ => none⟩

/-- With room for one file there are two after the first rotation. -/
theorem rotations_within_single :
    let ops := [.setMaxFiles 1, .setOutputFile, .log (.log .warn (ascii "12:00") (ascii "disk full"))]
    ∃ l, Fresh (ascii "log") l ∧ (run (step (ascii "log")) l ops).isSome ∧
      ¬ Guarded (step (ascii "log")) (RotationWithin (ascii "log")) l ops := by
  refine ⟨{ maxFileSize := 20 }, fresh_empty _ 20, rfl, fun h => ?_⟩
  have hset : Tidy (ascii "log") (Logger.setMaxFiles 1 { maxFileSize := 20 }) :=
    ⟨by decide, (fresh_empty _ 20).tidy.stream, (fresh_empty _ 20).tidy.numbered⟩
  have hwithin := ((h.2 _ rfl).2 _ rfl).1
  have hroomy := (rotationWithin_iff (setOutputFile_tidy hset)).mp hwithin
    ⟨by decide, by decide, by decide, by decide⟩
  exact absurd hroomy.1 (by decide)

end TzzeroHttp.LoggerFileCount
