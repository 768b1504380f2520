import OSChallenges.FileSystem.Sessions

/-!
# Writes and the blocks of a file

A file has one data block, and `fs_write` does not check that the entry it reads from the index block
is one: at an offset behind the first block the entry is 0, and the write goes to block 0. So a write
stays inside the file exactly if it stays inside the first block.
-/

namespace OSChallenges.FileSystem

open Records Words Outcomes Runs

/-- The positions of the write lie in blocks of the file and hold the bytes; nothing else has
changed on any disk. -/
structure OnlyWrites (s s' : State) (n : CString) (i : Fin maxFiles) (offset : Nat)
    (buf : List UInt8) : Prop where
  listed : ∀ k < buf.length, ∃ e : Fin 256, e.val = (offset + k) / blockSize ∧
    s.InUse (s.entryAt (s.files n) i e).toNat
  stored : ∀ k < buf.length, ∀ e : Fin 256, e.val = (offset + k) / blockSize →
    ((s'.files n).block (s.entryAt (s.files n) i e).toNat).byte ((offset + k) % blockSize) =
      buf.getD k 0
  kept : ∀ b < diskBlocks, ∀ p < blockSize,
    (∀ k < buf.length, ∀ e : Fin 256, e.val = (offset + k) / blockSize →
      b ≠ (s.entryAt (s.files n) i e).toNat ∨ p ≠ (offset + k) % blockSize) →
    ((s'.files n).block b).byte p = ((s.files n).block b).byte p
  others : ∀ x, x ≠ n → s'.files x = s.files x

/-- The copy into the buffer stays in it, and if the call returns the number of bytes, it has written
the file and nothing else. -/
def WritesInside (env : Env) (s : State) (fd : Fin maxDescriptors) (buf : List UInt8) : Prop :=
  fsWrite env s fd buf ≠ .error .overflow ∧
  ∀ s', fsWrite env s fd buf = .ok ((buf.length : Int), s') →
    ∀ n i, s.handle = some n → (s.fds fd).inodeNum.toNat = i.val →
      OnlyWrites s s' n i (s.fds fd).offset.toNat buf

variable {env : Env} {s : State} {n : CString} {fd : Fin maxDescriptors} {i : Fin maxFiles}
  {offset : Nat} {buf : List UInt8}

theorem copyInto_of_le {b : Block} (h : offset + buf.length ≤ blockSize) :
    ∃ b', copyInto b offset buf = .ok b' ∧ ∀ p < blockSize, b'.byte p =
      if offset ≤ p ∧ p < offset + buf.length then buf.getD (p - offset) 0 else b.byte p := by
  have hin : 0 ≤ (offset : Int) ∧ (offset : Int) + buf.length ≤ blockSize := by omega
  rw [copyInto, if_pos hin, Int.toNat_natCast]
  exact ⟨_, rfl, fun p hp => Block.byte_ofBytes _ hp⟩

theorem copyInto_of_lt {b : Block} (h : blockSize < offset + buf.length) :
    copyInto b offset buf = .error .overflow := by
  have hout : ¬ (0 ≤ (offset : Int) ∧ (offset : Int) + buf.length ≤ blockSize) := by omega
  rw [copyInto, if_neg hout]

theorem entry_eq_zero {m : Metadata} {f : File} (h : Consistent m f) (hi : m.used i)
    (hlarge : blockSize ≤ offset) (hlt : offset < 2 ^ 16) {e : Fin 256}
    (he : e.val = offset / blockSize) : m.entryAt f i e = 0 := by
  have hpos : 1 ≤ offset / blockSize := by
    rw [Nat.le_div_iff_mul_le (by decide)]
    omega
  have hfew : offset / blockSize < 128 := by
    unfold blockSize
    omega
  exact h.rest i hi e (by omega) (by omega)

theorem OnlyWrites.of_inside (h : InOrder s n) (hopened : Opened s fd i offset)
    (hin : offset + buf.length ≤ blockSize) (hne : buf ≠ []) {b : Block} {nbyte : Int}
    (hbytes : ∀ p < blockSize, b.byte p = if offset ≤ p ∧ p < offset + buf.length then
      buf.getD (p - offset) 0 else ((s.files n).block (s.dataAt (s.files n) i)).byte p) :
    OnlyWrites s (written s n fd i (s.dataAt (s.files n) i) b nbyte) n i offset buf := by
  have hlt : offset < blockSize := by
    have hlen := List.length_pos_iff.mpr hne
    omega
  have hsize := h.consistent.size
  have hinUse := h.consistent.data i hopened.used
  have hfirst : ∀ k < buf.length, (offset + k) / blockSize = 0 ∧ (offset + k) % blockSize = offset + k :=
    fun k hk => ⟨Nat.div_eq_of_lt (by omega), Nat.mod_eq_of_lt (by omega)⟩
  have hentry : ∀ k < buf.length, ∀ e : Fin 256, e.val = (offset + k) / blockSize →
      (s.entryAt (s.files n) i e).toNat = s.dataAt (s.files n) i := by
    intro k hk e he
    rw [(hfirst k hk).1] at he
    rw [show e = 0 from Fin.ext he]
    rfl
  have hfile : (written s n fd i (s.dataAt (s.files n) i) b nbyte).files n =
      (s.files n).write (s.dataAt (s.files n) i) b := Function.update_self ..
  refine ⟨?_, ?_, ?_, fun x hx => Function.update_of_ne hx ..⟩
  · intro k hk
    refine ⟨0, (hfirst k hk).1.symm, ?_⟩
    rw [hentry k hk 0 (hfirst k hk).1.symm]
    exact hinUse
  · intro k hk e he
    rw [hentry k hk e he, hfile, File.write_self, (hfirst k hk).2, hbytes _ (by omega),
      if_pos (by omega), Nat.add_sub_cancel_left]
  · intro c hc p hp hother
    rw [hfile]
    by_cases heq : c = s.dataAt (s.files n) i
    · rw [heq, File.write_self, hbytes p hp, if_neg]
      rintro ⟨hle, hlt⟩
      have hk : p - offset < buf.length := by omega
      rcases hother (p - offset) hk 0 (hfirst _ hk).1.symm with hne | hne
      · exact hne (by rw [heq, hentry _ hk 0 (hfirst _ hk).1.symm])
      · apply hne
        rw [(hfirst _ hk).2]
        omega
    · rw [File.write_other heq (by omega)]

theorem OnlyWrites.of_nil {t : Nat} {b : Block} {nbyte : Int} (h : InOrder s n)
    (hbytes : ∀ p < blockSize, b.byte p = ((s.files n).block t).byte p) :
    OnlyWrites s (written s n fd i t b nbyte) n i offset [] := by
  have hsize := h.consistent.size
  have hfile : (written s n fd i t b nbyte).files n = (s.files n).write t b := Function.update_self ..
  refine ⟨fun k hk => absurd hk (Nat.not_lt_zero k), fun k hk => absurd hk (Nat.not_lt_zero k), ?_,
    fun x hx => Function.update_of_ne hx ..⟩
  intro c hc p hp _
  rw [hfile]
  by_cases heq : c = t
  · rw [heq, File.write_self, hbytes p hp]
  · rw [File.write_other heq (by omega)]

/-- The write stays in the first block, or is one of no bytes. -/
theorem writesInside_of_le (hready : s.readyForUse = true) (hopen : s.handle = some n)
    (h : InOrder s n) (hopened : Opened s fd i offset)
    (hin : buf = [] ∨ offset + buf.length ≤ blockSize) : WritesInside env s fd buf := by
  have hrem : offset % blockSize + buf.length ≤ blockSize := by
    have hlt : offset % blockSize < blockSize := Nat.mod_lt _ (by decide)
    have hle : offset % blockSize ≤ offset := Nat.mod_le ..
    rcases hin with rfl | hle'
    · exact Nat.le_of_lt hlt
    · omega
  obtain ⟨b, hcopy, hbytes⟩ := copyInto_of_le (b := (s.files n).block
    (target s.toMetadata (s.files n) i offset)) hrem
  have hwrite := write_eq_map env hready hopen h.consistent hopened buf
  rw [hcopy] at hwrite
  constructor
  · rw [hwrite]
    exact fun heq => by cases heq
  · intro s' hs' n' i' hn' hi'
    rw [hopen] at hn'
    cases hn'
    have hsame : i' = i := Fin.ext (hi'.symm.trans hopened.inodeNum)
    subst hsame
    rw [hwrite] at hs'
    rw [← (Prod.mk.inj (Except.ok.inj hs')).2, hopened.offset, Int.toNat_natCast]
    by_cases hne : buf = []
    · subst hne
      refine .of_nil h ?_
      intro p hp
      rw [hbytes p hp, if_neg]
      rintro ⟨hle, hlt⟩
      exact absurd hlt (Nat.not_lt.mpr hle)
    · have hin' := hin.resolve_left hne
      have hlt : offset < blockSize := by
        have hpos := List.length_pos_iff.mpr hne
        omega
      have hmod : offset % blockSize = offset := Nat.mod_eq_of_lt hlt
      have htarget : target s.toMetadata (s.files n) i' offset = s.dataAt (s.files n) i' := if_pos hlt
      rw [htarget]
      rw [htarget, hmod] at hbytes
      exact .of_inside h hopened hin' hne hbytes

/-- Behind the first block the entry is 0, so that the write does not stay in the file. -/
theorem le_of_writesInside (hready : s.readyForUse = true) (hopen : s.handle = some n)
    (h : InOrder s n) (hopened : Opened s fd i offset) (hin : WritesInside env s fd buf) :
    buf = [] ∨ offset + buf.length ≤ blockSize := by
  obtain ⟨hroom, honly⟩ := hin
  by_contra hnot
  obtain ⟨hne, hlarge⟩ := not_or.mp hnot
  have hpos := List.length_pos_iff.mpr hne
  have hwrite := write_eq_map env hready hopen h.consistent hopened buf
  have hrem : offset % blockSize + buf.length ≤ blockSize := by
    by_contra hover
    rw [copyInto_of_lt (by omega)] at hwrite
    exact hroom hwrite
  have hsecond : blockSize ≤ offset := by
    by_contra hfirst
    rw [Nat.mod_eq_of_lt (by omega)] at hrem
    omega
  have hlen : toInt32 buf.length = buf.length := by
    unfold blockSize at hrem
    exact toInt32_of_lt (by omega)
  obtain ⟨b, hcopy, -⟩ := copyInto_of_le (b := (s.files n).block
    (target s.toMetadata (s.files n) i offset)) hrem
  rw [hcopy, hlen] at hwrite
  have hlisted := (honly _ hwrite n i hopen hopened.inodeNum).listed 0 hpos
  rw [hopened.offset, Int.toNat_natCast, Nat.add_zero] at hlisted
  obtain ⟨e, he, hinUse⟩ := hlisted
  rw [entry_eq_zero h.consistent hopened.used hsecond hopened.lt he] at hinUse
  exact absurd hinUse.1 (by decide)

theorem Orderly.writesInside_iff {w : Session} (h : Orderly w) (env : Env)
    (hused : (w.state.fds fd).isUsed = true) : WritesInside env w.state fd buf ↔
      buf = [] ∨ (w.state.fds fd).offset + buf.length ≤ blockSize := by
  cases hopen : w.state.handle with
  | none =>
    rw [h.closed hopen fd] at hused
    cases hused
  | some n =>
    have horder := h.mounted n hopen
    have hready := h.ready_of_open hopen
    obtain ⟨i, offset, hopened⟩ := horder.described fd hused
    have hcast : (w.state.fds fd).offset + buf.length ≤ blockSize ↔ offset + buf.length ≤ blockSize := by
      rw [hopened.offset]
      omega
    rw [hcast]
    exact ⟨le_of_writesInside hready hopen horder hopened,
      writesInside_of_le hready hopen horder hopened⟩

/-- As long as the writes of a session stay in the first block, a further one stays inside its file
exactly if it does so, too. -/
theorem writes_inside_iff {files : CString → File} {run : List ((Env × Call) × Session)}
    (h : EachStep Session.Step (.boot files) run) :
    Always (fun w : Session => ∀ env fd (buf : List UInt8), (w.state.fds fd).isUsed = true →
      (WritesInside env w.state fd buf ↔
        buf = [] ∨ (w.state.fds fd).offset + buf.length ≤ blockSize)) (.boot files) run := by
  refine (always_orderly h).mono ?_
  intro w hw env fd buf hused
  exact hw.writesInside_iff env hused

/-- A truncation to -1 makes the size 65535, and then the offset can be set to 4096. -/
def secondBlock : List ((Env × Call) × Session) :=
  trail Session.step (.boot fun _ => .empty) ([.makeFs (some disk0), .mountFs (some disk0),
    .create nameA, .open nameA, .truncate 0 (-1), .lseek 0 4096].map fun c => (Env.plain, c))

theorem writes_inside_iff_secondBlock : secondBlock.length = 6 ∧
    Always (fun w : Session => ∀ env fd (buf : List UInt8), (w.state.fds fd).isUsed = true →
      (WritesInside env w.state fd buf ↔
        buf = [] ∨ (w.state.fds fd).offset + buf.length ≤ blockSize))
      (.boot fun _ => .empty) secondBlock := by
  have hallows : EachStep (fun w a _ => Session.Allows w a.1 a.2) (.boot fun _ => .empty)
      secondBlock := by
    decide +kernel
  refine ⟨by decide +kernel, writes_inside_iff ?_⟩
  exact hallows.and (eachStep_trail ..)

/-- A write at 4096 returns 1 and changes the first byte of block 0. -/
theorem write_hits_metadata : EachStep Session.Step (.boot fun _ => .empty) secondBlock ∧
    (∃ s', fsWrite .plain (last (.boot fun _ => .empty) secondBlock).state descriptor0 [1] =
      .ok (1, s') ∧ ((s'.files disk0).block 0).byte 0 = 1) ∧
    (((last (.boot fun _ => .empty) secondBlock).state.files disk0).block 0).byte 0 = 6 ∧
    ¬ WritesInside .plain (last (.boot fun _ => .empty) secondBlock).state descriptor0 [1] := by
  have hallows : EachStep (fun w a _ => Session.Allows w a.1 a.2) (.boot fun _ => .empty)
      secondBlock := by
    decide +kernel
  have hsteps : EachStep Session.Step (.boot fun _ => .empty) secondBlock :=
    hallows.and (eachStep_trail ..)
  have hret : passes (fun p => p.1 = 1 ∧ ((p.2.files disk0).block 0).byte 0 = 1)
      (fsWrite .plain (last (.boot fun _ => .empty) secondBlock).state descriptor0 [1]) = true := by
    decide +kernel
  have hused : ((last (.boot fun _ => .empty) secondBlock).state.fds descriptor0).isUsed = true := by
    decide +kernel
  have hbefore : (((last (.boot fun _ => .empty) secondBlock).state.files disk0).block 0).byte 0 =
      6 := by
    decide +kernel
  have hoffset : ((last (.boot fun _ => .empty) secondBlock).state.fds descriptor0).offset = 4096 := by
    decide +kernel
  refine ⟨hsteps, ?_, hbefore, ?_⟩
  · obtain ⟨⟨r, s'⟩, hwrite, htest⟩ := ok_of_passes hret
    obtain ⟨rfl, hbyte⟩ := of_decide_eq_true htest
    exact ⟨s', hwrite, hbyte⟩
  · rw [(always_orderly hsteps).last.writesInside_iff .plain hused, hoffset]
    decide

end OSChallenges.FileSystem
