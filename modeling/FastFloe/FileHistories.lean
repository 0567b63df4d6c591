import FastFloe.ManualDecryption
import FastFloe.ManualEncryption
import FastFloe.SerialDecryption
import FastFloe.SerialEncryption
import FastFloe.Transparent

namespace FastFloe

open Rust

/-!
# Histories of the file programs

The programs are run one after the other on one disk, in any order and with any
answers of the system.  They only create files, so a file that an encryption
created stays what it is, and whichever program decrypts it later gets back
what was encrypted.
-/

section Runs

variable {platform : Platform}

/-- An encrypting run. -/
theorem Invocation.run_encryptsFile
    {invocation : Invocation}
    (agree : platform.SealsAgree)
    (roundTrips : platform.RoundTrips)
    (encrypts : invocation.arguments.operation = .encrypt)
    (disk : Disk) :
    EncryptsFile platform invocation.arguments.key
      invocation.arguments.parameters disk invocation.arguments.input
      invocation.arguments.output (invocation.run platform disk) := by
  cases program : invocation.program with
  | manual =>
      simp only [Invocation.run, program, encrypts]
      apply ManualFile.encryptFile_encryptsFile roundTrips
  | serial =>
      simp only [Invocation.run, program, encrypts]
      apply SerialFile.encryptFile_encryptsFile agree roundTrips

/-- A decrypting run. -/
theorem Invocation.run_decryptsFile
    {invocation : Invocation}
    (agree : platform.OpensAgree)
    (decrypts : invocation.arguments.operation = .decrypt)
    (disk : Disk) :
    DecryptsFile platform invocation.arguments.key
        invocation.arguments.parameters disk invocation.arguments.input
        invocation.arguments.output (invocation.run platform disk) ∧
      (invocation.environment.Faultless →
        disk.file invocation.arguments.output = none →
          ∀ ciphertext plaintext,
            disk.file invocation.arguments.input = some ciphertext →
              ciphertext.length ≤ u64Max →
              decryptWithParameters platform invocation.arguments.key fileAad
                  invocation.arguments.parameters ciphertext =
                .ok plaintext →
              (invocation.run platform disk).1 = .ok ()) := by
  cases program : invocation.program with
  | manual =>
      simp only [Invocation.run, program, decrypts]
      apply ManualFile.decryptFile_decryptsFile agree
  | serial =>
      simp only [Invocation.run, program, decrypts]
      apply SerialFile.decryptFile_decryptsFile agree

/-- Every file is still there, with the same contents. -/
def Disk.Keeps (before after : Disk) : Prop :=
  ∀ path contents,
    before.file path = some contents → after.file path = some contents

theorem Disk.Keeps.refl (disk : Disk) : Disk.Keeps disk disk :=
  fun _ _ present => present

theorem Disk.Keeps.trans
    {first second third : Disk}
    (earlier : Disk.Keeps first second)
    (later : Disk.Keeps second third) :
    Disk.Keeps first third :=
  fun path contents present => later path contents (earlier path contents present)

/-- A file that is created displaces no other. -/
theorem Disk.keeps_put
    {disk : Disk}
    {path : Path}
    (absent : disk.file path = none)
    (contents : Bytes) :
    Disk.Keeps disk (disk.put path contents) := by
  intro other found present
  have apart : other ≠ path := by
    rintro rfl
    rw [absent] at present
    cases present
  rw [Disk.file_put_of_ne apart]
  exact present

/-- What one run does to the disk: nothing, or it creates its output. -/
theorem Invocation.run_cases
    (agree : platform.SealsAgree)
    (opensAgree : platform.OpensAgree)
    (roundTrips : platform.RoundTrips)
    (invocation : Invocation)
    (disk : Disk) :
    (invocation.run platform disk).1.Returns ∧
      ((invocation.run platform disk).2 = disk ∨
        disk.file invocation.arguments.output = none ∧
          ∃ contents,
            (invocation.run platform disk).2 =
              disk.put invocation.arguments.output contents) := by
  cases operation : invocation.arguments.operation with
  | encrypt =>
      rcases Invocation.run_encryptsFile agree roundTrips operation disk with
        ⟨returns, _, same⟩ |
          ⟨_, _, _, contents, _, absent, created, _, _, leaves⟩
      · exact ⟨returns, .inl same⟩
      · exact ⟨leaves.returns, .inr ⟨absent, contents, created⟩⟩
  | decrypt =>
      rcases (Invocation.run_decryptsFile opensAgree operation disk).1 with
        ⟨returns, _, same⟩ | ⟨_, contents, _, absent, created, leaves⟩
      · exact ⟨returns, .inl same⟩
      · exact ⟨leaves.returns, .inr ⟨absent, contents, created⟩⟩

/-- One run keeps every file. -/
theorem Invocation.run_keeps
    (agree : platform.SealsAgree)
    (opensAgree : platform.OpensAgree)
    (roundTrips : platform.RoundTrips)
    (invocation : Invocation)
    (disk : Disk) :
    Disk.Keeps disk (invocation.run platform disk).2 := by
  rcases (invocation.run_cases agree opensAgree roundTrips disk).2 with
    same | ⟨absent, contents, created⟩
  · rw [same]
    exact .refl disk
  · rw [created]
    exact Disk.keeps_put absent contents

/-- Runs keep every file. -/
theorem runAll_keeps
    (agree : platform.SealsAgree)
    (opensAgree : platform.OpensAgree)
    (roundTrips : platform.RoundTrips)
    (invocations : List Invocation)
    (disk : Disk) :
    Disk.Keeps disk (runAll platform invocations disk).2 := by
  induction invocations generalizing disk with
  | nil => exact .refl disk
  | cons invocation later inductionHypothesis =>
      exact (invocation.run_keeps agree opensAgree roundTrips disk).trans
        (inductionHypothesis _)

/-- Runs after runs. -/
theorem runAll_append
    (first second : List Invocation)
    (disk : Disk) :
    (runAll platform (first ++ second) disk).2 =
      (runAll platform second (runAll platform first disk).2).2 := by
  induction first generalizing disk with
  | nil => rfl
  | cons invocation later inductionHypothesis =>
      exact inductionHypothesis _

end Runs

/-- A disk with one file. -/
def oneFileDisk : Disk where
  file path := if path = [105] then some [1, 2, 3] else none

/-- A system that fails no call, but reads and writes in pieces. -/
def fragmentingEnvironment : Environment IoPayload where
  opens := none
  measures := none
  creates := none
  reads := [.short 0, .interrupted]
  writes := [.accept 7]
  whole := by simp
  capacity := 5
  positive := by decide

/-- A run that encrypts the file segment by segment. -/
def encryptingRun : Invocation where
  program := .manual
  arguments := ⟨.encrypt, [105], [111], zeroKey, shortestSegments⟩
  environment := fragmentingEnvironment
  rng := zeroRng

/-- A run that decrypts through the reader what the other run left. -/
def decryptingRun : Invocation where
  program := .serial
  arguments := ⟨.decrypt, [111], [114], zeroKey, shortestSegments⟩
  environment := fragmentingEnvironment
  rng := zeroRng

/-- Whatever the system answers, every run of a file program comes back, and
runs in any order keep every file with its contents.  What they add to the disk
are outputs of theirs. -/
theorem runAll_onlyCreates
    {platform : Platform}
    (agree : platform.SealsAgree)
    (opensAgree : platform.OpensAgree)
    (roundTrips : platform.RoundTrips)
    (invocations : List Invocation)
    (disk : Disk) :
    (∀ result ∈ (runAll platform invocations disk).1, result.Returns) ∧
      (∀ path contents,
        disk.file path = some contents →
          (runAll platform invocations disk).2.file path = some contents) ∧
      ∀ path,
        disk.file path = none →
          (runAll platform invocations disk).2.file path ≠ none →
            ∃ invocation ∈ invocations, invocation.arguments.output = path := by
  refine ⟨?_, runAll_keeps agree opensAgree roundTrips invocations disk, ?_⟩
  · induction invocations generalizing disk with
    | nil => simp [runAll]
    | cons invocation later inductionHypothesis =>
        intro result member
        rcases List.mem_cons.mp member with rfl | further
        · exact (invocation.run_cases agree opensAgree roundTrips disk).1
        · exact inductionHypothesis _ result further
  · intro path absent
    induction invocations generalizing disk with
    | nil => exact fun present => (present absent).elim
    | cons invocation later inductionHypothesis =>
        intro present
        by_cases mine : invocation.arguments.output = path
        · exact ⟨invocation, List.mem_cons_self, mine⟩
        · have still : (invocation.run platform disk).2.file path = none := by
            rcases (invocation.run_cases agree opensAgree roundTrips disk).2
              with same | ⟨_, contents, created⟩
            · rw [same]
              exact absent
            · rw [created, Disk.file_put_of_ne (Ne.symm mine)]
              exact absent
          obtain ⟨other, member, same⟩ := inductionHypothesis _ still present
          exact ⟨other, List.mem_cons_of_mem _ member, same⟩

set_option maxRecDepth 100000 in
/-- Two runs that keep the first file and create another one. -/
theorem runAll_onlyCreates_example :
    (runAll openPlatform [encryptingRun, decryptingRun]
        oneFileDisk).2.file [105] = some [1, 2, 3] ∧
      ∃ invocation ∈ [encryptingRun, decryptingRun],
        invocation.arguments.output = [114] := by
  obtain ⟨_, keeps, outputs⟩ :=
    runAll_onlyCreates transparent_sealsAgree transparent_opensAgree
      transparent_roundTrips [encryptingRun, decryptingRun] oneFileDisk
  exact ⟨keeps [105] [1, 2, 3] rfl,
    outputs [114] rfl (Option.ne_none_iff_isSome.mpr rfl)⟩

/-- What either encrypting program leaves, whatever else runs afterwards, is the
input of that encryption to every decryption with its key, and never anything
else.  That holds of what a failed encryption left, too; and after an
encryption that succeeded, a decryption with its parameters succeeds when
nothing goes wrong. -/
theorem runAll_restores
    {platform : Platform}
    {encryption decryption : Invocation}
    (agree : platform.SealsAgree)
    (opensAgree : platform.OpensAgree)
    (roundTrips : platform.RoundTrips)
    (encrypts : encryption.arguments.operation = .encrypt)
    (decrypts : decryption.arguments.operation = .decrypt)
    (sameKey : decryption.arguments.key = encryption.arguments.key)
    (takes : decryption.arguments.input = encryption.arguments.output)
    (disk : Disk)
    (before between after : List Invocation)
    (created :
      (runAll platform before disk).2.file encryption.arguments.output = none ∧
        (runAll platform (before ++ [encryption]) disk).2.file
          encryption.arguments.output ≠ none) :
    ∃ plaintext ciphertext,
      (runAll platform before disk).2.file encryption.arguments.input =
          some plaintext ∧
        (runAll platform (before ++ [encryption]) disk).2.file
            encryption.arguments.output = some ciphertext ∧
        ((decryption.run platform (runAll platform
              (before ++ [encryption] ++ between) disk).2).1 = .ok () →
          (runAll platform
              (before ++ [encryption] ++ between ++ decryption :: after)
              disk).2.file decryption.arguments.output = some plaintext) ∧
        ((encryption.run platform (runAll platform before disk).2).1 =
            .ok () →
          ciphertext.length ≤ u64Max →
          decryption.arguments.parameters =
            encryption.arguments.parameters →
          decryption.environment.Faultless →
          (runAll platform (before ++ [encryption] ++ between)
              disk).2.file decryption.arguments.output = none →
          (decryption.run platform (runAll platform
            (before ++ [encryption] ++ between) disk).2).1 = .ok ()) := by
  obtain ⟨absent, present⟩ := created
  have one (start : Disk) :
      (runAll platform [encryption] start).2 =
        (encryption.run platform start).2 :=
    rfl
  rw [runAll_append, one] at present
  rcases Invocation.run_encryptsFile agree roundTrips encrypts
      (runAll platform before disk).2 with
    ⟨_, _, same⟩ |
      ⟨plaintext, header, context, ciphertext, found, _, placed, authentic,
        own, leaves⟩
  · rw [same] at present
    exact (present absent).elim
  -- The file is there, and stays what it is.
  have sealedFile :
      (runAll platform (before ++ [encryption]) disk).2.file
        encryption.arguments.output = some ciphertext := by
    rw [runAll_append, one, placed, Disk.file_put_self]
  have kept :
      (runAll platform (before ++ [encryption] ++ between) disk).2.file
        decryption.arguments.input = some ciphertext := by
    rw [runAll_append, takes]
    exact runAll_keeps agree opensAgree roundTrips between _ _ _ sealedFile
  obtain ⟨opens, succeeds⟩ :=
    Invocation.run_decryptsFile opensAgree decrypts
      (runAll platform (before ++ [encryption] ++ between) disk).2
  refine ⟨plaintext, ciphertext, found, sealedFile, fun ok => ?_,
    fun ok short sameParameters faultless fresh => ?_⟩
  · rcases opens with
      ⟨_, failed, _⟩ | ⟨stored, written, taken, _, put, opened⟩
    · exact (failed ok).elim
    · rw [kept] at taken
      cases taken
      have accepted :=
        (decryptWithParameters_eq_ok_iff.mp (opened.accepted ok)).1
      rw [sameKey] at accepted
      cases leaves.decrypt_eq authentic accepted
      rw [runAll_append]
      apply runAll_keeps agree opensAgree roundTrips after
      rw [put, Disk.file_put_self]
  · apply succeeds faultless fresh ciphertext plaintext kept short
    rw [ok] at leaves
    rw [sameKey, sameParameters, ← own]
    exact leaves.decrypts authentic

set_option maxRecDepth 100000 in
/-- What one program encrypted, decrypted by the other. -/
theorem runAll_restores_example :
    (runAll openPlatform [encryptingRun, decryptingRun]
      oneFileDisk).2.file [114] = some [1, 2, 3] := by
  obtain ⟨plaintext, ciphertext, found, _, restores, _⟩ :=
    @runAll_restores openPlatform encryptingRun decryptingRun
      transparent_sealsAgree transparent_opensAgree transparent_roundTrips
      rfl rfl rfl rfl oneFileDisk [] [] []
      ⟨rfl, Option.ne_none_iff_isSome.mpr rfl⟩
  cases found
  exact restores rfl

/-- Both encrypting programs write what `encrypt` returns: under any answers to
the writes a beginning of it, all of it when they succeed, and they do succeed
when nothing goes wrong.  The adapter needs reads that do not fail for that. -/
theorem encryptingRun_writesAnswer
    {platform : Platform}
    {invocation : Invocation}
    {disk : Disk}
    {plaintext ciphertext : Bytes}
    (agree : platform.SealsAgree)
    (encrypts : invocation.arguments.operation = .encrypt)
    (present : disk.file invocation.arguments.input = some plaintext)
    (absent : disk.file invocation.arguments.output = none)
    (fragments :
      invocation.program = .serial →
        ∀ event ∈ invocation.environment.reads, event.Fragments)
    (encrypted :
      encrypt platform invocation.arguments.key fileAad
          invocation.arguments.parameters invocation.rng plaintext =
        .ok ciphertext) :
    AnswersFile disk invocation.arguments.output ciphertext
        (invocation.run platform disk) ∧
      (invocation.environment.Faultless →
        (invocation.run platform disk).1 = .ok ()) := by
  cases program : invocation.program with
  | manual =>
      simp only [Invocation.run, program, encrypts]
      exact ManualFile.encryptFile_answersFile agree present absent encrypted
  | serial =>
      simp only [Invocation.run, program, encrypts]
      exact SerialFile.encryptFile_answersFile agree present absent
        (fragments program) encrypted

set_option maxRecDepth 100000 in
/-- An encryption that writes in pieces. -/
theorem encryptingRun_writesAnswer_example :
    ∃ ciphertext,
      encrypt openPlatform zeroKey fileAad shortestSegments zeroRng [1, 2, 3] =
          .ok ciphertext ∧
        AnswersFile oneFileDisk [111] ciphertext
          (encryptingRun.run openPlatform oneFileDisk) := by
  obtain ⟨ciphertext, encrypted⟩ :
      ∃ ciphertext,
        encrypt openPlatform zeroKey fileAad shortestSegments zeroRng
          [1, 2, 3] = .ok ciphertext :=
    ⟨_, rfl⟩
  exact ⟨ciphertext, encrypted,
    (@encryptingRun_writesAnswer openPlatform encryptingRun oneFileDisk
      [1, 2, 3] ciphertext transparent_sealsAgree rfl rfl rfl
      (fun impossible => by cases impossible) encrypted).1⟩

/-- Both decrypting programs agree with `decrypt_with_parameters`.  Whatever the
system answers, a run that fails leaves a beginning of what the leading segments
of its input open to, which on a message is a beginning of its plaintext; a run
that succeeds leaves the plaintext; and when nothing goes wrong a run succeeds
exactly on what is accepted. -/
theorem decryptingRun_agrees
    {platform : Platform}
    {invocation : Invocation}
    (agree : platform.OpensAgree)
    (decrypts : invocation.arguments.operation = .decrypt)
    (disk : Disk) :
    DecryptsFile platform invocation.arguments.key
        invocation.arguments.parameters disk invocation.arguments.input
        invocation.arguments.output (invocation.run platform disk) ∧
      (∀ ciphertext plaintext,
        disk.file invocation.arguments.input = some ciphertext →
          decrypt platform invocation.arguments.key fileAad ciphertext =
              .ok plaintext →
            AnswersFile disk invocation.arguments.output plaintext
              (invocation.run platform disk)) ∧
      (invocation.environment.Faultless →
        ∀ ciphertext,
          disk.file invocation.arguments.input = some ciphertext →
            disk.file invocation.arguments.output = none →
            ciphertext.length ≤ u64Max →
            ((invocation.run platform disk).1 = .ok () ↔
              ∃ plaintext,
                decryptWithParameters platform invocation.arguments.key fileAad
                    invocation.arguments.parameters ciphertext =
                  .ok plaintext)) := by
  obtain ⟨opens, succeeds⟩ :=
    Invocation.run_decryptsFile agree decrypts disk
  refine ⟨opens, fun ciphertext plaintext present accepted => ?_,
    fun faultless ciphertext present absent short => ⟨fun ok => ?_, ?_⟩⟩
  · rcases opens with
      ⟨_, failed, same⟩ | ⟨stored, contents, found, _, put, leaves⟩
    · exact .inl ⟨failed, same⟩
    · rw [present] at found
      cases found
      obtain ⟨isPrefix, whole⟩ := leaves.isPrefix accepted
      exact .inr ⟨contents, put, isPrefix, whole⟩
  · rcases opens with
      ⟨_, failed, _⟩ | ⟨stored, contents, found, _, _, leaves⟩
    · exact (failed ok).elim
    · rw [present] at found
      cases found
      exact ⟨contents, leaves.accepted ok⟩
  · rintro ⟨plaintext, accepted⟩
    exact succeeds faultless absent ciphertext plaintext present short accepted

set_option maxRecDepth 100000 in
/-- A decryption of what an encryption left. -/
theorem decryptingRun_agrees_example :
    ∃ ciphertext,
      (encryptingRun.run openPlatform oneFileDisk).2.file [111] =
          some ciphertext ∧
        ((decryptingRun.run openPlatform
              (encryptingRun.run openPlatform oneFileDisk).2).1 = .ok () ↔
          ∃ plaintext,
            decryptWithParameters openPlatform zeroKey fileAad
              shortestSegments ciphertext = .ok plaintext) := by
  have faultless : decryptingRun.environment.Faultless :=
    ⟨rfl, rfl, rfl,
      by simp [decryptingRun, fragmentingEnvironment, SourceEvent.Fragments],
      by simp [decryptingRun, fragmentingEnvironment]⟩
  obtain ⟨ciphertext, present, short⟩ :
      ∃ ciphertext,
        (encryptingRun.run openPlatform oneFileDisk).2.file [111] =
            some ciphertext ∧
          ciphertext.length ≤ u64Max :=
    ⟨_, rfl, by decide⟩
  exact ⟨ciphertext, present,
    (@decryptingRun_agrees openPlatform decryptingRun transparent_opensAgree
      rfl (encryptingRun.run openPlatform oneFileDisk).2).2.2 faultless
      ciphertext present rfl short⟩

end FastFloe
