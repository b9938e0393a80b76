import TzzeroHttp.LoggerModel

/-! Log rotation. The numbered files hold the latest generations of the log, the newest as number
one, and the output file what came after them; a rotation moves every generation up by one and
loses only the oldest. -/
namespace TzzeroHttp.LoggerRotation
open ByteText LoggerModel

variable {base : Bytes} {maxFiles : ℤ} {files : Files}

theorem numbered_injective (base : Bytes) : Function.Injective (numbered base) := by
  intro i j h
  exact decimal_injective (List.append_cancel_left h)

theorem numbered_ne_base (base : Bytes) (i : ℕ) : numbered base i ≠ base := by
  intro h
  have hlength := congrArg List.length h
  have hdot : (ascii ".").length = 1 := rfl
  simp only [numbered, List.length_append, hdot] at hlength
  omega

theorem numbered_ne {i j : ℕ} (h : i ≠ j) : numbered base i ≠ numbered base j :=
  fun heq => h (numbered_injective base heq)

theorem rename_old (old new : Bytes) : files.rename old new old = none := by
  simp [Files.rename]

theorem rename_new {old new : Bytes} (h : old ≠ new) : files.rename old new new = files old := by
  simp [Files.rename, Function.update_of_ne h.symm]

theorem rename_other {old new name : Bytes} (hold : name ≠ old) (hnew : name ≠ new) :
    files.rename old new name = files name := by
  simp [Files.rename, Function.update_of_ne hold, Function.update_of_ne hnew]

theorem shiftFile_spec {i : ℕ} (hi : (i : ℤ) ≠ maxFiles - 1)
    (hfree : files (numbered base (i + 1)) = none) :
    let shifted := Logger.shiftFile base maxFiles i files
    shifted (numbered base (i + 1)) = files (numbered base i) ∧ shifted (numbered base i) = none ∧
      ∀ name, name ≠ numbered base i → name ≠ numbered base (i + 1) → shifted name = files name := by
  have hne : numbered base i ≠ numbered base (i + 1) := numbered_ne (by omega)
  simp only [Logger.shiftFile, if_neg hi]
  split_ifs with hexists
  · exact ⟨rename_new hne, rename_old _ _, fun name hold hnew => rename_other hold hnew⟩
  · have hnone : files (numbered base i) = none := by simpa using hexists
    exact ⟨by rw [hfree, hnone], hnone, fun _ _ _ => rfl⟩

/-- The loop from `i` down, with number `i + 1` free: every file moves up by one. -/
theorem shiftFrom_spec {i : ℕ} (hi : (i : ℤ) < maxFiles - 1)
    (hfree : files (numbered base (i + 1)) = none) :
    let shifted := Logger.shiftFrom base maxFiles i files
    (∀ k, 1 ≤ k → k ≤ i → shifted (numbered base (k + 1)) = files (numbered base k)) ∧
      shifted (numbered base 1) = none ∧
      ∀ name, (∀ k, 1 ≤ k → k ≤ i + 1 → name ≠ numbered base k) → shifted name = files name := by
  induction i generalizing files with
  | zero => exact ⟨fun k _ _ => by omega, hfree, fun _ _ => rfl⟩
  | succ i ih =>
    have hturn : ((i + 1 : ℕ) : ℤ) ≠ maxFiles - 1 := by omega
    obtain ⟨hmoved, hleft, hothers⟩ := shiftFile_spec hturn hfree
    have hlower : (i : ℤ) < maxFiles - 1 := by omega
    obtain ⟨hbelow, hfirst, hrest⟩ := ih hlower hleft
    refine ⟨fun k hk hki => ?_, hfirst, fun name hname => ?_⟩
    · by_cases hlast : k = i + 1
      · subst hlast
        simp only [Logger.shiftFrom]
        rw [hrest _ fun j _ hj => numbered_ne (by omega)]
        exact hmoved
      · simp only [Logger.shiftFrom]
        rw [hbelow k hk (by omega)]
        exact hothers _ (numbered_ne (by omega)) (numbered_ne (by omega))
    · simp only [Logger.shiftFrom]
      rw [hrest name fun k hk hki => hname k hk (by omega)]
      exact hothers name (hname _ (by omega) (by omega)) (hname _ (by omega) (by omega))

theorem shiftFrom_all (base : Bytes) (files : Files) (hmax : 2 ≤ maxFiles) :
    let shifted := Logger.shiftFrom base maxFiles (maxFiles - 1).toNat files
    (∀ k : ℕ, 1 ≤ k → (k : ℤ) + 1 < maxFiles → shifted (numbered base (k + 1)) = files (numbered base k)) ∧
      shifted (numbered base 1) = none ∧
      ∀ name, (∀ k : ℕ, 1 ≤ k → (k : ℤ) < maxFiles → name ≠ numbered base k) →
        shifted name = files name := by
  obtain ⟨n, hn⟩ : ∃ n : ℕ, maxFiles = n + 2 := ⟨(maxFiles - 2).toNat, by omega⟩
  have htop : (maxFiles - 1).toNat = n + 1 := by omega
  have holdest : Logger.shiftFile base maxFiles (n + 1) files = files.remove (numbered base (n + 1)) := by
    have hlast : ((n + 1 : ℕ) : ℤ) = maxFiles - 1 := by omega
    simp only [Logger.shiftFile, if_pos hlast]
    split_ifs with hexists
    · rfl
    · have hnone : files (numbered base (n + 1)) = none := by simpa using hexists
      rw [Files.remove, Function.update_eq_self_iff.mpr hnone.symm]
  have hfree : files.remove (numbered base (n + 1)) (numbered base (n + 1)) = none := by
    simp [Files.remove]
  have hremoved : ∀ name, name ≠ numbered base (n + 1) →
      files.remove (numbered base (n + 1)) name = files name :=
    fun name h => Function.update_of_ne h _ _
  have hbound : (n : ℤ) < maxFiles - 1 := by omega
  obtain ⟨hbelow, hfirst, hrest⟩ := shiftFrom_spec hbound hfree
  simp only [htop, Logger.shiftFrom, holdest]
  refine ⟨fun k hk hkn => ?_, hfirst, fun name hname => ?_⟩
  · rw [hbelow k hk (by omega)]
    exact hremoved _ (numbered_ne (by omega))
  · rw [hrest name fun k hk hkn => hname k hk (by omega)]
    exact hremoved name (hname (n + 1) (by omega) (by omega))

theorem rotateLogFile_files {l : Logger} (hmax : 2 ≤ l.maxFiles) (hbase : l.outputFile ≠ [])
    (hexists : (l.files l.outputFile).isSome) :
    let rotated := l.rotateLogFile.files
    rotated l.outputFile = some [] ∧
      rotated (numbered l.outputFile 1) = l.files l.outputFile ∧
      (∀ k : ℕ, 1 ≤ k → (k : ℤ) + 1 < l.maxFiles →
        rotated (numbered l.outputFile (k + 1)) = l.files (numbered l.outputFile k)) ∧
      ∀ k : ℕ, 1 ≤ k → l.maxFiles ≤ k →
        rotated (numbered l.outputFile k) = l.files (numbered l.outputFile k) := by
  obtain ⟨hmoved, hfirst, hothers⟩ := shiftFrom_all l.outputFile l.files hmax
  have hcurrent := hothers l.outputFile fun k _ _ => (numbered_ne_base _ k).symm
  have hne : ∀ k, numbered l.outputFile k ≠ l.outputFile := numbered_ne_base l.outputFile
  have hlater : ∀ k : ℕ, k ≠ 1 → l.rotateLogFile.files (numbered l.outputFile k) =
      Logger.shiftFrom l.outputFile l.maxFiles (l.maxFiles - 1).toNat l.files
        (numbered l.outputFile k) := by
    intro k hk
    simp only [Logger.rotateLogFile, if_neg hbase, hcurrent, if_pos hexists]
    rw [Function.update_of_ne (hne k), rename_other (hne k) (numbered_ne hk)]
  refine ⟨?_, ?_, fun k hk hkn => ?_, fun k hk hkn => ?_⟩
  · simp [Logger.rotateLogFile, hbase]
  · simp only [Logger.rotateLogFile, if_neg hbase, hcurrent, if_pos hexists]
    rw [Function.update_of_ne (hne 1), rename_new (hne 1).symm, hcurrent]
  · rw [hlater (k + 1) (by omega), hmoved k hk hkn]
  · rw [hlater k (by omega), hothers _ fun j _ hj => numbered_ne (by omega)]

def text (lines : List Bytes) : Bytes := lines.flatMap (· ++ [lf])

@[simp] theorem text_nil : text [] = [] := rfl

theorem text_append (xs ys : List Bytes) : text (xs ++ ys) = text xs ++ text ys := List.flatMap_append

theorem text_snoc (xs : List Bytes) (line : Bytes) : text (xs ++ [line]) = text xs ++ (line ++ [lf]) := by
  rw [text_append]
  simp [text]

structure Setup where
  level : LogLevel
  base : Bytes
  maxFileSize : ℕ
  maxFiles : ℤ

/-- The logger writes the output file of its settings. -/
structure Writes (c : Setup) (l : Logger) : Prop where
  level : l.level = c.level
  outputFile : l.outputFile = c.base
  fileStream : l.fileStream = some c.base
  maxFileSize : l.maxFileSize = c.maxFileSize
  maxFiles : l.maxFiles = c.maxFiles

/-- The files hold the lines after the `lost` ones: `older` are the numbered files, the newest
first, and `current` is the output file. -/
structure Generations (c : Setup) (l : Logger) (lines lost : List Bytes) (older : List (List Bytes))
    (current : List Bytes) : Prop where
  writes : Writes c l
  lines : lines = lost ++ (older.reverse.flatten ++ current)
  file : l.files c.base = some (text current)
  numbered : ∀ k, l.files (numbered c.base (k + 1)) = older[k]?.map text
  few : (older.length : ℤ) < c.maxFiles
  full : ∀ g ∈ older, c.maxFileSize ≤ (text g).length
  size : l.currentFileSize = (text current).length

variable {c : Setup} {l : Logger} {lines lost current : List Bytes} {older : List (List Bytes)}

theorem Writes.rotate (h : Writes c l) (hbase : c.base ≠ []) :
    Writes c l.rotateLogFile ∧ l.rotateLogFile.currentFileSize = 0 := by
  have hnot : l.outputFile ≠ [] := by rw [h.outputFile]; exact hbase
  rw [Logger.rotateLogFile, if_neg hnot]
  exact ⟨⟨h.level, h.outputFile, by simp [h.outputFile], h.maxFileSize, h.maxFiles⟩, rfl⟩

/-- A rotation makes the output file the newest generation and loses what no longer fits. -/
theorem Generations.rotate (h : Generations c l lines lost older current) (hbase : c.base ≠ [])
    (hmax : 2 ≤ c.maxFiles) (hfull : c.maxFileSize ≤ (text current).length) :
    let n := (c.maxFiles - 1).toNat
    Generations c l.rotateLogFile lines (lost ++ ((current :: older).drop n).reverse.flatten)
      ((current :: older).take n) [] := by
  intro n
  have hn : (n : ℤ) = c.maxFiles - 1 := by omega
  have hexists : (l.files l.outputFile).isSome := by simp [h.writes.outputFile, h.file]
  obtain ⟨hnew, hfirst, hmoved, hbeyond⟩ := rotateLogFile_files
    (by rw [h.writes.maxFiles]; exact hmax) (by rw [h.writes.outputFile]; exact hbase) hexists
  rw [h.writes.outputFile] at hnew hfirst hmoved hbeyond
  rw [h.writes.maxFiles] at hmoved hbeyond
  obtain ⟨hwrites, hzero⟩ := h.writes.rotate hbase
  refine ⟨hwrites, ?_, hnew, fun k => ?_, ?_, fun g hg => ?_, hzero⟩
  · have hsplit := congrArg (fun gs => gs.reverse.flatten) (List.take_append_drop n (current :: older))
    simp only [List.reverse_append, List.flatten_append, List.reverse_cons, List.flatten_cons,
      List.flatten_nil, List.append_nil] at hsplit
    rw [h.lines, ← hsplit]
    simp
  · by_cases hk : k < n
    · rw [List.getElem?_take_of_lt hk]
      cases k with
      | zero => simpa [h.file] using hfirst
      | succ k =>
        rw [hmoved (k + 1) (by omega) (by push_cast; omega), h.numbered k]
        rfl
    · rw [hbeyond (k + 1) (by omega) (by push_cast; omega), h.numbered k]
      have hlen := h.few
      rw [List.getElem?_eq_none (by omega), List.getElem?_eq_none (by simp; omega)]
  · have hlen : ((current :: older).take n).length ≤ n := List.length_take_le n _
    omega
  · rcases List.mem_cons.mp (List.mem_of_mem_take hg) with rfl | hg
    · exact hfull
    · exact h.full g hg

def written (base : Bytes) (l : Logger) (line : Bytes) : Logger :=
  { l with
    console := l.console ++ [line]
    files := Function.update l.files base (some ((l.files base).getD [] ++ line ++ [lf]))
    currentFileSize := l.currentFileSize + (line.length + 1) }

theorem emit_eq (h : Writes c l) (hbase : c.base ≠ []) (line : Bytes) :
    l.emit line = if c.maxFileSize ≤ (written c.base l line).currentFileSize
      then (written c.base l line).rotateLogFile else written c.base l line := by
  have hnot : l.outputFile ≠ [] := by rw [h.outputFile]; exact hbase
  simp only [Logger.emit, written, h.fileStream, if_neg hnot, h.maxFileSize]

theorem Generations.write (h : Generations c l lines lost older current) (line : Bytes) :
    Generations c (written c.base l line) (lines ++ [line]) lost older (current ++ [line]) := by
  refine ⟨⟨h.writes.level, h.writes.outputFile, h.writes.fileStream, h.writes.maxFileSize,
    h.writes.maxFiles⟩, ?_, ?_, fun k => ?_, h.few, h.full, ?_⟩
  · simp [h.lines]
  · simp [written, h.file, text_snoc]
  · simp [written, Function.update_of_ne (numbered_ne_base c.base (k + 1)), h.numbered k]
  · simp [written, h.size, text_snoc]

theorem Generations.emit (h : Generations c l lines lost older current) (hbase : c.base ≠ [])
    (hmax : 2 ≤ c.maxFiles) (hsize : 1 ≤ c.maxFileSize) (line : Bytes) :
    ∃ lost' older' current', Generations c (l.emit line) (lines ++ [line]) lost' older' current' ∧
      (text current').length < c.maxFileSize := by
  have hwritten := h.write line
  rw [emit_eq h.writes hbase, hwritten.size]
  split_ifs with hfull
  · exact ⟨_, _, [], hwritten.rotate hbase hmax hfull, hsize⟩
  · exact ⟨_, _, _, hwritten, not_le.mp hfull⟩

def logged (level : LogLevel) (calls : List Call) : List Bytes :=
  (calls.filter (·.Passes level)).map Call.logLine

def archive (files : Files) (base : Bytes) : ℕ → Bytes
  | 0 => (files base).getD []
  | n + 1 => (files (numbered base (n + 1))).getD [] ++ archive files base n

theorem Generations.archive (h : Generations c l lines lost older current) (n : ℕ) :
    archive l.files c.base n = text ((older.take n).reverse.flatten ++ current) := by
  induction n with
  | zero => simp [LoggerRotation.archive, h.file]
  | succ n ih =>
    rw [LoggerRotation.archive, ih, h.numbered n, List.take_add_one]
    cases older[n]? <;> simp [text_append]

theorem Generations.log (h : Generations c l lines lost older current) (hbase : c.base ≠ [])
    (hmax : 2 ≤ c.maxFiles) (hsize : 1 ≤ c.maxFileSize)
    (hbelow : (text current).length < c.maxFileSize) (call : Call) :
    ∃ lost' older' current',
      Generations c (l.log call) (lines ++ logged c.level [call]) lost' older' current' ∧
        (text current').length < c.maxFileSize := by
  unfold Logger.log
  rw [h.writes.level]
  split_ifs with hpasses
  · simpa [logged, hpasses] using h.emit hbase hmax hsize call.logLine
  · exact ⟨lost, older, current, by simpa [logged, hpasses] using h, hbelow⟩

theorem Generations.run (h : Generations c l lines lost older current) (hbase : c.base ≠ [])
    (hmax : 2 ≤ c.maxFiles) (hsize : 1 ≤ c.maxFileSize)
    (hbelow : (text current).length < c.maxFileSize) (calls : List Call) :
    ∃ lost' older' current',
      Generations c (calls.foldl Logger.log l) (lines ++ logged c.level calls) lost' older' current' ∧
        (text current').length < c.maxFileSize := by
  induction calls generalizing l lines lost older current with
  | nil => exact ⟨lost, older, current, by simpa [logged] using h, hbelow⟩
  | cons call calls ih =>
    obtain ⟨lost₁, older₁, current₁, h₁, hbelow₁⟩ := h.log hbase hmax hsize hbelow call
    have hlines : lines ++ logged c.level (call :: calls) =
        lines ++ logged c.level [call] ++ logged c.level calls := by
      simp only [logged, List.append_assoc, ← List.map_append, ← List.filter_append,
        List.singleton_append]
    rw [hlines]
    exact ih h₁ hbelow₁

/-- A logger with these settings, on an empty file system, that has been given its output file. -/
def Setup.start (c : Setup) : Logger :=
  Logger.setOutputFile c.base { level := c.level, maxFileSize := c.maxFileSize, maxFiles := c.maxFiles }

theorem start_generations (hbase : c.base ≠ []) (hmax : 2 ≤ c.maxFiles) :
    Generations c c.start [] [] [] [] := by
  have hstart : c.start = {
      level := c.level, maxFileSize := c.maxFileSize, maxFiles := c.maxFiles, outputFile := c.base,
      fileStream := some c.base, files := Function.update (fun _ => none) c.base (some []) } := by
    simp [Setup.start, Logger.setOutputFile, hbase]
  rw [hstart]
  refine ⟨⟨rfl, rfl, rfl, rfl, rfl⟩, rfl, by simp, fun k => ?_, by simp; omega, by simp, rfl⟩
  simp [Function.update_of_ne (numbered_ne_base c.base (k + 1))]

/-- After every sequence of calls the files, from the oldest number to the output file, hold the
last lines logged; the output file is below the limit and its size is the one counted, every
numbered file has reached the limit, and no number from the maximum on exists. -/
theorem rotation_keeps_suffix (c : Setup) (calls : List Call) (hbase : c.base ≠ [])
    (hmax : 2 ≤ c.maxFiles) (hsize : 1 ≤ c.maxFileSize) :
    let l := calls.foldl Logger.log c.start
    (∃ kept, kept <:+ logged c.level calls ∧
        archive l.files c.base (c.maxFiles - 1).toNat = text kept) ∧
      (∃ content, l.files c.base = some content ∧ l.currentFileSize = content.length ∧
        content.length < c.maxFileSize) ∧
      (∀ k content, 1 ≤ k → l.files (numbered c.base k) = some content →
        c.maxFileSize ≤ content.length) ∧
      ∀ k : ℕ, c.maxFiles ≤ k → l.files (numbered c.base k) = none := by
  intro l
  obtain ⟨lost, older, current, h, hbelow⟩ :=
    (start_generations hbase hmax).run hbase hmax hsize hsize calls
  have hfew := h.few
  refine ⟨⟨older.reverse.flatten ++ current, ⟨lost, ?_⟩, ?_⟩, ⟨_, h.file, h.size, hbelow⟩, ?_, ?_⟩
  · simpa using h.lines.symm
  · rw [h.archive, List.take_of_length_le (by omega)]
  · intro k content hk hcontent
    obtain ⟨k, rfl⟩ : ∃ j, k = j + 1 := ⟨k - 1, by omega⟩
    rw [h.numbered k] at hcontent
    obtain ⟨g, hg, rfl⟩ := Option.map_eq_some_iff.mp hcontent
    exact h.full g (List.mem_of_getElem? hg)
  · intro k hk
    obtain ⟨k, rfl⟩ : ∃ j, k = j + 1 := ⟨k - 1, by omega⟩
    rw [h.numbered k, List.getElem?_eq_none (by omega)]
    rfl

/-- Seven lines of which every two reach the limit, with room for two numbered files: the first
two lines are gone. -/
theorem rotation_keeps_suffix_seven :
    let c : Setup := ⟨.info, ascii "log", 40, 3⟩
    let calls := List.replicate 7 (Call.log .warn (ascii "12:00") (ascii "disk full"))
    let l := calls.foldl Logger.log c.start
    (∃ kept, kept <:+ logged c.level calls ∧ archive l.files c.base 2 = text kept) ∧
      (archive l.files c.base 2).length = 5 * 26 := by
  intro c calls l
  exact ⟨(rotation_keeps_suffix c calls (by decide) (by decide) (by decide)).1, by decide +kernel⟩

end TzzeroHttp.LoggerRotation
