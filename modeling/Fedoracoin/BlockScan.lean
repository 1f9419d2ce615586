import Fedoracoin.ExternalBlockFile

/-!
# The scan of a file of blocks

The loop of `LoadExternalBlockFile` ends on every file.  But a false record, a header without a
block, may have been read so far that the buffer does not go back behind its first byte any more, or
to the end of the file, where the loop stops (`scanBody_of_isCutShort`).  If no false record is
(`ImportEnv.Resumes`), every record is offered to `ProcessBlock` that does not overlap a block that
was (`scanBlocks_spec`).
-/

namespace Fedoracoin

open Wire AnyStream
open CMessageHeader (messageStartSize)

/-! ## The whole scan -/

/-- A record was offered, or it overlaps a block that was. -/
def Covered (offered : List Offer) (p : Nat) (block : CBlock) : Prop :=
  ∃ offer ∈ offered, offer.nBlockPos = p + 8 ∧ offer.block = block ∨
    offer.nBlockPos < p + 8 ∧ p < offer.nEnd

/-- What holds of the scan in any case. -/
structure ScanState.Inv (content : List UInt8) (base : Nat) (s : ScanState) : Prop where
  scanning : Scanning content base s.blkdat
  base_le : base ≤ s.nRewind
  le_src : s.nRewind ≤ s.blkdat.nSrcPos

/-- What holds of the scan as long as it goes back to where it should: nothing before `nRewind` was
left out, and the rest can be read. -/
structure ScanState.OnTrack (env : ImportEnv) (content : List UInt8) (base : Nat) (s : ScanState) :
    Prop where
  failbit_eq : s.blkdat.failbit = false
  src_le : s.blkdat.nSrcPos ≤ s.nRewind + s.blkdat.nRewind
  eof : s.blkdat.eof = true → ∀ p block, s.nRewind ≤ p → ¬ IsRecord env content p block
  covered : ∀ p block, base ≤ p → p < s.nRewind → IsRecord env content p block →
    Covered s.offered p block

/-- A record without a block was neither read to the end of the file nor so far that the buffer does
not go back behind its first byte. -/
def ImportEnv.Resumes (env : ImportEnv) (n : Nat) (s : ScanState) : Prop :=
  ∀ g r, (s.blkdat.good && !s.blkdat.eof) = true →
    env.attempt n s.blkdat s.nRewind = some (.broken g r) →
      g.good = true ∧ g.eof = false ∧ g.nSrcPos ≤ r + g.nRewind

section

variable {env : ImportEnv} {content : List UInt8} {base n : Nat} {s s' : ScanState} {offer : Offer}

theorem Covered.append {offered : List Offer} {p : Nat} {block : CBlock}
    (h : Covered offered p block) (offer : Offer) : Covered (offered ++ [offer]) p block := by
  obtain ⟨o, ho, hcov⟩ := h
  exact ⟨o, List.mem_append_left _ ho, hcov⟩

/-- All records are covered when there are none from `nRewind` on. -/
theorem ScanState.OnTrack.covered_all (ht : s.OnTrack env content base)
    (hnone : ∀ p block, s.nRewind ≤ p → ¬ IsRecord env content p block) (p : Nat) (block : CBlock)
    (hp : base ≤ p) (hrec : IsRecord env content p block) : Covered s.offered p block := by
  rcases Nat.lt_or_ge p s.nRewind with hlt | hge
  · exact ht.covered p block hp hlt hrec
  · exact absurd hrec (hnone p block hge)

/-- Going on behind bytes where no record starts. -/
theorem ScanState.OnTrack.again {g : CBufferedFile} {r : Nat} (ht : s.OnTrack env content base)
    (hclear : Clear env content s.nRewind r) (hfail : g.failbit = false)
    (hsrc : g.nSrcPos ≤ r + g.nRewind)
    (heof : g.eof = true → ∀ p block, r ≤ p → ¬ IsRecord env content p block) :
    ScanState.OnTrack env content base { s with blkdat := g, nRewind := r } where
  failbit_eq := hfail
  src_le := hsrc
  eof := heof
  covered p block hp hlt hrec := by
    rcases Nat.lt_or_ge p s.nRewind with hold | hnew
    · exact ht.covered p block hp hold hrec
    · exact absurd hrec (hclear p block hnew hlt)

/-- Going on behind a block that was offered. -/
theorem ScanState.OnTrack.record {g : CBufferedFile} (ht : s.OnTrack env content base)
    (hright : (Attempt.record g offer).Right env content base s.nRewind false)
    (hoffered : s'.offered = s.offered ++ [offer]) (hblkdat : s'.blkdat = g)
    (hrewind : s'.nRewind = offer.nEnd) : s'.OnTrack env content base := by
  obtain ⟨hg, hend, hq, hle, hfail, hclear, hsame⟩ := hright
  have hahead := hg.window.ahead_le
  have hgrewind := hg.nRewind_eq
  have hsize := hg.size_eq
  refine ⟨hblkdat ▸ hfail, ?_, ?_, ?_⟩
  · rw [hblkdat, hrewind, ← hend]
    omega
  · rw [hblkdat, hrewind, ← hend]
    exact fun heof p block hp ↦ not_isRecord_of_eof hg heof (by omega)
  · intro p block hp hlt hrec
    rw [hrewind] at hlt
    rw [hoffered]
    rcases Nat.lt_or_ge p s.nRewind with hold | hnew
    · exact (ht.covered p block hp hold hrec).append offer
    · refine ⟨offer, by simp, ?_⟩
      rcases Nat.lt_trichotomy (p + 8) offer.nBlockPos with hbefore | hat | hafter
      · exact absurd hrec (hclear p block hnew (by omega))
      · have hplace : offer.nBlockPos - 8 = p := by omega
        exact Or.inl ⟨hat.symm, (hsame block (hplace ▸ hrec)).symm⟩
      · exact Or.inr ⟨hafter, hlt⟩

/-- **One iteration** of the loop. -/
theorem scanBody_spec (env : ImportEnv) (n : Nat) (hs : s.Inv content base)
    (hbase : base < 2 ^ 32)
    (hn : content.length < n) :
    (∃ s', env.scanBody n base s = some (.inl s') ∧ (s.OnTrack env content base →
        s'.fError = true ∨ ∀ p block, base ≤ p → IsRecord env content p block →
          Covered s'.offered p block)) ∨
      ∃ s', env.scanBody n base s = some (.inr s') ∧ s'.Inv content base ∧
        s.nRewind < s'.nRewind ∧
        (s.OnTrack env content base → env.Resumes n s → s'.OnTrack env content base) := by
  rw [ImportEnv.scanBody]
  split
  case isFalse hstop =>
      refine Or.inl ⟨s, rfl, fun ht ↦ Or.inr (ht.covered_all ?_)⟩
      apply ht.eof
      simpa [CBufferedFile.good, ht.failbit_eq] using hstop
  case isTrue hgo =>
      obtain ⟨a, q, ha, hle, hright, hback⟩ := attempt_spec env hs.scanning hbase
        hs.base_le hs.le_src hn
      have hb := hs.base_le
      rw [ha]
      cases a with
      | stop g =>
          refine Or.inl ⟨_, rfl, fun ht ↦ Or.inr (ht.covered_all fun p block hp ↦ ?_)⟩
          rw [← hback ht.src_le] at hp
          exact hright p block hp
      | skip g r =>
          obtain ⟨hg, hlt, hrsrc, hclear, hfail, hsrc, heof⟩ := hright
          refine Or.inr ⟨_, rfl, ⟨hg, by simp only; omega, hrsrc⟩, hle.trans_lt hlt, fun ht _ ↦ ?_⟩
          rw [hback ht.src_le] at hclear
          exact ht.again hclear (hfail.trans ht.failbit_eq) hsrc heof
      | broken g r =>
          obtain ⟨hg, hrsrc, hclear, h, hq, rfl, -⟩ := hright
          refine Or.inr ⟨_, rfl, ⟨hg, by simp only; omega, hrsrc⟩, by simp only; omega, ?_⟩
          intro ht hresume
          obtain ⟨hgood, heof, hsrc⟩ := hresume g _ hgo ha
          rw [hback ht.src_le] at hclear
          refine ht.again hclear (by simpa [CBufferedFile.good] using hgood) hsrc fun he ↦ ?_
          exact absurd (heof.symm.trans he) (by simp)
      | record g offer =>
          have hrecord := hright
          obtain ⟨hg, hend, hq, hblock, -⟩ := hright
          have hread := hg.window.read_le
          have hright' (ht : s.OnTrack env content base) :
              (Attempt.record g offer).Right env content base s.nRewind false := by
            rw [hback ht.src_le, ht.failbit_eq] at hrecord
            exact hrecord
          simp only
          rw [if_pos (by omega), ImportEnv.offerBlock]
          simp only
          split
          case isTrue herror => exact Or.inl ⟨_, rfl, fun _ ↦ Or.inl herror⟩
          case isFalse =>
              refine Or.inr ⟨_, rfl, ⟨hg, ?_, ?_⟩, ?_,
                fun ht _ ↦ ht.record (hright' ht) rfl rfl rfl⟩
              all_goals
                simp only
                omega

/-- **A false record that the file ends in** ends the scan, with records still behind it. -/
theorem scanBody_of_isCutShort {k p : Nat} {block : CBlock} (hs : s.Inv content base)
    (ht : s.OnTrack env content base) (hbase : base < 2 ^ 32) (hn : content.length < n)
    (hcut : IsCutShort env content s.nRewind k) (hrec : IsRecord env content p block)
    (hp : s.nRewind ≤ p) :
    ∃ g, env.scanBody n base s = some (.inr { s with blkdat := g, nRewind := s.nRewind + 1 }) ∧
      env.scanBody n base { s with blkdat := g, nRewind := s.nRewind + 1 } =
        some (.inl { s with blkdat := g, nRewind := s.nRewind + 1 }) := by
  have hgo : (s.blkdat.good && !s.blkdat.eof) = true := by
    have hnone : s.blkdat.eof = false :=
      Bool.eq_false_iff.mpr fun heof ↦ ht.eof heof p block hp hrec
    rw [CBufferedFile.good, ht.failbit_eq, hnone]
    rfl
  obtain ⟨g, ha, hgood⟩ := attempt_of_isCutShort env hs.scanning hbase hs.base_le hs.le_src
    ht.src_le hn hcut hrec hp
  refine ⟨g, ?_, ?_⟩
  · rw [ImportEnv.scanBody, if_pos hgo, ha]
  · rw [ImportEnv.scanBody, if_neg]
    simp only [hgood]
    exact Bool.false_ne_true

/-- Where there is no false record, the scan is not led astray. -/
theorem resumes_of_not_isFalseRecord (hs : s.Inv content base) (hbase : base < 2 ^ 32)
    (hn : content.length < n) (hnone : ∀ p, base ≤ p → ¬ IsFalseRecord env content p) :
    env.Resumes n s := by
  intro g r hgo hbroken
  obtain ⟨a, q, ha, hle, hright, -⟩ := attempt_spec env hs.scanning hbase
    hs.base_le hs.le_src hn
  rw [hbroken] at ha
  obtain rfl := Option.some.inj ha
  obtain ⟨-, -, -, h, hq, -, hfalse⟩ := hright
  exact absurd hfalse (hnone h ((hs.base_le.trans hle).trans hq))

/-- The scan starts on track. -/
theorem scanStart_spec (env : ImportEnv) (fileIn : FileStream) (info : Option UInt32)
    (hpos : fileIn.pos = 0) (heof : fileIn.feof = false) :
    (ImportEnv.scanStart fileIn info).Inv fileIn.content (info.getD 0).toNat ∧
      (ImportEnv.scanStart fileIn info).OnTrack env fileIn.content (info.getD 0).toNat := by
  have hmax : maxBlockSize = 1000000 := rfl
  have huint : uintMax = 4294967295 := rfl
  have hw := CBufferedFile.window_init fileIn hpos heof
    (show maxBlockSize + 8 < 2 * maxBlockSize by omega) (by omega)
  have hsize : (CBufferedFile.init fileIn (2 * maxBlockSize) (maxBlockSize + 8)).vchBuf.length =
      2 * maxBlockSize := List.length_replicate
  obtain ⟨hblkdat, hrewind⟩ : Scanning fileIn.content (info.getD 0).toNat
        (ImportEnv.scanStart fileIn info).blkdat ∧
      ((ImportEnv.scanStart fileIn info).nRewind = (info.getD 0).toNat ∧
        (ImportEnv.scanStart fileIn info).blkdat.nSrcPos = (info.getD 0).toNat ∧
        (ImportEnv.scanStart fileIn info).blkdat.failbit = false ∧
        (ImportEnv.scanStart fileIn info).blkdat.src.feof = false) := by
    cases info with
    | none => exact ⟨⟨hw, rfl, rfl, hsize⟩, rfl, rfl, rfl, heof⟩
    | some nSize =>
        have hlt : nSize.toNat < 2 ^ 63 := nSize.toNat_lt.trans (by norm_num)
        rw [ImportEnv.scanStart, CBufferedFile.seek_of_lt _ hlt]
        exact ⟨⟨hw.seek nSize.toNat, rfl, rfl, hsize⟩, rfl, rfl, rfl, rfl⟩
  obtain ⟨hnRewind, hnSrcPos, hfail, hfeof⟩ := hrewind
  refine ⟨⟨hblkdat, hnRewind.ge, (hnRewind.trans hnSrcPos.symm).le⟩, hfail, ?_, ?_, ?_⟩
  · rw [hnRewind, hnSrcPos]
    exact Nat.le_add_right _ _
  · intro he
    rw [CBufferedFile.eof, hfeof, Bool.and_false] at he
    cases he
  · intro p block hp hlt
    rw [hnRewind] at hlt
    exact absurd hp (Nat.not_le.mpr hlt)

/-- **The scan** ends on every file, and misses no record if no false one leads it astray. -/
theorem ImportEnv.scanBlocks_spec (env : ImportEnv) (n : Nat) (fileIn : FileStream)
    (info : Option UInt32) (hpos : fileIn.pos = 0) (heof : fileIn.feof = false)
    (hn : fileIn.content.length + (info.getD 0).toNat < n) :
    ∃ s', env.scanBlocks n fileIn info = some s' ∧
      ((∀ k s, Loop.after (env.scanBody n (info.getD 0).toNat) k (scanStart fileIn info) = some s →
          env.Resumes n s) →
        s'.fError = true ∨ ∀ p block, (info.getD 0).toNat ≤ p →
          IsRecord env fileIn.content p block → Covered s'.offered p block) := by
  obtain ⟨hinv, htrack⟩ := scanStart_spec env fileIn info hpos heof
  rw [scanBlocks]
  refine Loop.run_spec
    (I := fun s ↦ s.Inv fileIn.content (info.getD 0).toNat ∧
      (∃ k, Loop.after (env.scanBody n (info.getD 0).toNat) k (scanStart fileIn info) = some s) ∧
      ((∀ k s, Loop.after (env.scanBody n (info.getD 0).toNat) k (scanStart fileIn info) = some s →
        env.Resumes n s) → s.OnTrack env fileIn.content (info.getD 0).toNat))
    (m := fun s ↦ max (info.getD 0).toNat fileIn.content.length - s.nRewind)
    ?_ ⟨hinv, ⟨0, rfl⟩, fun _ ↦ htrack⟩ (by omega)
  rintro s ⟨hs, ⟨k, hk⟩, ht⟩
  rcases scanBody_spec env n hs (info.getD 0).toNat_lt (by omega) with
    ⟨s', hbody, hend⟩ | ⟨s', hbody, hs', hlt, hnext⟩
  · exact Or.inl ⟨s', hbody, fun hall ↦ hend (ht hall)⟩
  · refine Or.inr ⟨s', hbody, ⟨hs', ⟨k + 1, ?_⟩, fun hall ↦ ?_⟩, ?_⟩
    · rw [Loop.after_add hk]
      exact Loop.after_again hbody
    · exact hnext (ht hall) (hall k s hk)
    · have hle := hs'.le_src
      have hsrc := hs'.scanning.window.src_le
      rw [hs'.scanning.content_eq] at hsrc
      omega

/-- The states that the scan comes to. -/
theorem inv_after {k : Nat} (hs : s.Inv content base) (hbase : base < 2 ^ 32)
    (hn : content.length < n) (hk : Loop.after (env.scanBody n base) k s = some s') :
    s'.Inv content base := by
  refine Loop.after_invariant (fun s₁ s₂ hs₁ hbody ↦ ?_) hs hk
  rcases scanBody_spec env n hs₁ hbase hn with ⟨s₃, hexit, -⟩ | ⟨s₃, hagain, hs₃, -⟩
  · rw [hexit] at hbody
    cases hbody
  · rw [hagain] at hbody
    cases hbody
    exact hs₃

/-- **A file without false records** is scanned without a miss. -/
theorem ImportEnv.resumes_after (env : ImportEnv) {n : Nat} {fileIn : FileStream}
    {info : Option UInt32} (hpos : fileIn.pos = 0) (heof : fileIn.feof = false)
    (hn : fileIn.content.length + (info.getD 0).toNat < n)
    (hnone : ∀ p, (info.getD 0).toNat ≤ p → ¬ IsFalseRecord env fileIn.content p) (k : Nat)
    (s : ScanState)
    (hk : Loop.after (env.scanBody n (info.getD 0).toNat) k (scanStart fileIn info) = some s) :
    env.Resumes n s := by
  have hbase := (info.getD 0).toNat_lt
  have hs := inv_after (scanStart_spec env fileIn info hpos heof).1 hbase (by omega) hk
  exact resumes_of_not_isFalseRecord hs hbase (by omega) hnone

end

/-- **The buffered file and the scan.**  In a run in which no rewind goes further behind what was
read from the file than is guaranteed, nor behind the last `Seek`, the bytes are the file's and
rewinds succeed.  The scan ends on every file; unless it is led astray by a false record or ended by
an error, every record is offered that does not overlap a block that was. -/
theorem bufferedFile_scan (fileIn : FileStream) (hpos : fileIn.pos = 0)
    (heof : fileIn.feof = false) (n : Nat) :
    (∀ (nBufSize nRewindIn : Nat) (calls : List BufferCall),
      nRewindIn < nBufSize → nBufSize ≤ uintMax → fileIn.content.length < n →
      (CBufferedFile.init fileIn nBufSize nRewindIn).AllMeet n 0 calls →
        (CBufferedFile.init fileIn nBufSize nRewindIn).Faithful n calls) ∧
    ∀ (env : ImportEnv) (info : Option UInt32),
      fileIn.content.length + (info.getD 0).toNat < n →
        (∃ fLoaded, env.loadExternalBlockFile n fileIn info = some fLoaded) ∧
        ∃ s', env.scanBlocks n fileIn info = some s' ∧
          ((∀ k s, Loop.after (env.scanBody n (info.getD 0).toNat) k
              (ImportEnv.scanStart fileIn info) = some s → env.Resumes n s) →
            s'.fError = true ∨ ∀ p block, (info.getD 0).toNat ≤ p →
              IsRecord env fileIn.content p block → Covered s'.offered p block) := by
  refine ⟨?_, ?_⟩
  · intro nBufSize nRewindIn calls hlt hle hn hmeet
    exact CBufferedFile.faithful_of_allMeet (CBufferedFile.window_init fileIn hpos heof hlt hle) hn
      hmeet
  · intro env info hn
    obtain ⟨s', hscan, hcover⟩ := env.scanBlocks_spec n fileIn info hpos heof hn
    refine ⟨⟨decide (0 < s'.nLoaded), ?_⟩, s', hscan, hcover⟩
    rw [ImportEnv.loadExternalBlockFile, hscan]
    rfl

/-- A node that takes every block. -/
def sampleImportEnv : ImportEnv where
  messageStart := [0xde, 0xad, 0x13, 0x37]
  length_messageStart := rfl
  processBlock _ _ := (true, false)

/-- A false record, and in its block a record. -/
def hiddenStream : FileStream where
  content := [0xde, 0xad, 0x13, 0x37, 0xe8, 3, 0, 0, 0xde, 0xad, 0x13, 0x37, 81, 0, 0, 0] ++
    (List.replicate 72 0 ++ [1, 0, 0, 0, 0, 1, 0, 0, 0])
  length_lt := by decide

/-- The block of the record. -/
def hiddenBlock : CBlock where
  nVersion := 0
  hashPrevBlock := 0
  hashMerkleRoot := 0
  nTime := 0
  nBits := 1
  nNonce := 256
  vtx := []

/-- The record alone, between other bytes. -/
def framedStream : FileStream where
  content := [1, 2, 3] ++ hiddenStream.content.drop 8 ++ [4, 5]
  length_lt := by decide

theorem isRecord_framedStream : IsRecord sampleImportEnv framedStream.content 3 hiddenBlock where
  messageStart := by decide
  least := by decide
  most := by decide
  unserialize := ⟨[], by decide +kernel⟩

/-- Seven bytes, one back, on to byte 9; and a record between other bytes is offered. -/
theorem bufferedFile_scan_sample :
    (CBufferedFile.init CBufferedFile.sampleStream 10 2).Faithful 11
        [.read 7, .setPos 6, .findByte 9] ∧
      ∃ s', sampleImportEnv.scanBlocks 95 framedStream none = some s' ∧
        (s'.fError = true ∨ Covered s'.offered 3 hiddenBlock) := by
  constructor
  · apply (bufferedFile_scan CBufferedFile.sampleStream rfl rfl 11).1 10 2 _ (by decide)
      (by decide) (by decide)
    refine ⟨trivial, fun out g hrun ↦ ?_⟩
    have hread : (BufferCall.read 7).run 11 (CBufferedFile.init CBufferedFile.sampleStream 10 2) =
        some (.data (.ok [0, 1, 2, 3, 4, 5, 6]), {
          CBufferedFile.init CBufferedFile.sampleStream 10 2 with
          src := { CBufferedFile.sampleStream with pos := 8 }
          nSrcPos := 8
          nReadPos := 7
          vchBuf := [0, 1, 2, 3, 4, 5, 6, 7, 0, 0] }) := rfl
    obtain ⟨-, rfl⟩ := Prod.mk.inj (Option.some.inj (hrun.symm.trans hread))
    exact ⟨⟨by decide, by decide⟩, fun out g hrun ↦ ⟨trivial, fun _ _ _ ↦ trivial⟩⟩
  · obtain ⟨-, s', hs', hcover⟩ :=
      (bufferedFile_scan framedStream rfl rfl 95).2 sampleImportEnv none (by decide)
    have hresumes := hcover (sampleImportEnv.resumes_after rfl rfl (by decide) ?_)
    · exact ⟨s', hs', hresumes.imp_right fun h ↦ h 3 _ (Nat.zero_le 3) isRecord_framedStream⟩
    · -- the message start is at byte 3 only
      have honly : ∀ p < 94, (framedStream.content.drop p).take messageStartSize =
          sampleImportEnv.messageStart → p = 3 := by decide +kernel
      rintro p - hfalse
      by_cases hlt : p < 94
      · obtain rfl := honly p hlt hfalse.messageStart
        exact hfalse.not_isRecord _ isRecord_framedStream
      · have hstart := hfalse.messageStart
        rw [List.drop_eq_nil_of_le (not_lt.mp hlt)] at hstart
        cases hstart

theorem isRecord_hiddenBlock : IsRecord sampleImportEnv hiddenStream.content 8 hiddenBlock where
  messageStart := by decide
  least := by decide
  most := by decide
  unserialize := ⟨[], by decide +kernel⟩

theorem isCutShort_hiddenStream : IsCutShort sampleImportEnv hiddenStream.content 0 36 where
  messageStart := by decide
  least := by decide
  most := by decide
  runsOut := by decide +kernel
  piece_le := by decide
  far := by decide

/-- The record is not offered. -/
theorem scanBlocks_hiddenStream :
    ∃ s', sampleImportEnv.scanBlocks 98 hiddenStream none = some s' ∧ s'.fError = false ∧
      s'.offered = [] := by
  obtain ⟨hinv, htrack⟩ := scanStart_spec sampleImportEnv hiddenStream none rfl rfl
  obtain ⟨g, hagain, hexit⟩ := scanBody_of_isCutShort (n := 98) hinv htrack (by decide) (by decide)
    isCutShort_hiddenStream isRecord_hiddenBlock (Nat.zero_le _)
  refine ⟨{ ImportEnv.scanStart hiddenStream none with blkdat := g, nRewind := 1 }, ?_, rfl, rfl⟩
  rw [ImportEnv.scanBlocks]
  exact (Loop.run_again hagain).trans (Loop.run_exit hexit)

/-- **Both fail**: a rewind within the guarantee is refused, and a record behind a false one is not
offered. -/
theorem bufferedFile_scan_fails :
    (¬ ∀ (src : FileStream) (nBufSize nRewindIn n : Nat) (calls : List BufferCall),
      src.pos = 0 → src.feof = false → src.content.length < n →
        (CBufferedFile.init src nBufSize nRewindIn).Faithful n calls) ∧
    ¬ ∀ (env : ImportEnv) (fileIn : FileStream) (info : Option UInt32) (n : Nat),
      fileIn.pos = 0 → fileIn.feof = false → fileIn.content.length + (info.getD 0).toNat < n →
        ∃ s', env.scanBlocks n fileIn info = some s' ∧
          (s'.fError = true ∨ ∀ p block, (info.getD 0).toNat ≤ p →
            IsRecord env fileIn.content p block → Covered s'.offered p block) := by
  refine ⟨CBufferedFile.faithful_fails, fun hall ↦ ?_⟩
  obtain ⟨s₁, hscan, hcovered⟩ := hall sampleImportEnv hiddenStream none 98 rfl rfl (by decide)
  obtain ⟨s₂, hscan', herror, hoffered⟩ := scanBlocks_hiddenStream
  obtain rfl := Option.some.inj (hscan.symm.trans hscan')
  rw [herror] at hcovered
  obtain ⟨offer, hmem, -⟩ := hcovered.resolve_left Bool.false_ne_true 8 hiddenBlock (Nat.zero_le _)
    isRecord_hiddenBlock
  rw [hoffered] at hmem
  exact absurd hmem List.not_mem_nil

end Fedoracoin
