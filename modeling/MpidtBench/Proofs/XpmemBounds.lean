import MpidtBench.Proofs.XpmemMapped

namespace MpidtBench.XpmemBounds
open Traced CInteger ScatterGather Pages MpidtBench XpmemLoops XpmemMapped

-- The sender's list as main builds it: `nblocks` blocks of a page-aligned buffer.
structure Layout (pageSize base nblocks blocksize : Nat) : Prop where
  power : ∃ k < 63, pageSize = 2 ^ k
  aligned : pageSize ∣ base
  nonnull : 0 < base
  bytes : 0 < blocksize
  small : nblocks * blocksize ≤ intMax
  fits : base + nblocks * blocksize ≤ sizeMod

section
variable {pageSize base nblocks blocksize : Nat}

theorem Layout.positive (layout : Layout pageSize base nblocks blocksize) : 0 < pageSize := by
  obtain ⟨k,_,rfl⟩ := layout.power
  exact Nat.two_pow_pos k

theorem offset_below (inside : i < nblocks) (blocksize : Nat) :
    i * blocksize + blocksize ≤ nblocks * blocksize := by
  rw [← Nat.succ_mul]
  exact Nat.mul_le_mul_right _ inside

-- A buffer that ends inside the address space holds every block where the list puts it.
theorem block_known (bytes : 0 < blocksize) (fits : base + nblocks * blocksize ≤ sizeMod) (inside : i < nblocks) :
    (initIov base nblocks blocksize)[i]? = some ⟨base + i * blocksize,blocksize⟩ := by
  have bound := offset_below inside blocksize
  rw [initIov_at inside,mulSize_exact (by omega)]

theorem known_block (bytes : 0 < blocksize) (fits : base + nblocks * blocksize ≤ sizeMod)
    (known : (initIov base nblocks blocksize)[i]? = some v) : i < nblocks ∧ v = ⟨base + i * blocksize,blocksize⟩ := by
  have inside : i < nblocks := by
    have bound := (List.getElem?_eq_some_iff.mp known).1
    rwa [initIov_length] at bound
  rw [block_known bytes fits inside] at known
  exact ⟨inside,(Option.some.inj known).symm⟩

theorem block_at (layout : Layout pageSize base nblocks blocksize) (inside : i < nblocks) :
    (initIov base nblocks blocksize)[i]? = some ⟨base + i * blocksize,blocksize⟩ := block_known layout.bytes layout.fits inside

theorem block_index (layout : Layout pageSize base nblocks blocksize) (known : (initIov base nblocks blocksize)[i]? = some v) :
    i < nblocks ∧ v = ⟨base + i * blocksize,blocksize⟩ := known_block layout.bytes layout.fits known

theorem take_total (nblocks : Nat) (inside : i ≤ nblocks) : total ((initIov base nblocks blocksize).take i) = i * blocksize := by
  have front : (initIov base nblocks blocksize).take i = initIov base i blocksize := by
    rw [initIov,initIov,← List.map_take,List.take_range,Nat.min_eq_left inside]
  rw [front,initIov_total]

theorem page_at (power : ∃ k < 63, pageSize = 2 ^ k) (aligned : pageSize ∣ base) (bytes : 0 < blocksize)
    (fits : base + nblocks * blocksize ≤ sizeMod) (inside : i < nblocks) :
    pageBase pageSize (base + i * blocksize) = base + i * blocksize / pageSize * pageSize := by
  have bound := offset_below inside blocksize
  have positive : 0 < pageSize := by
    obtain ⟨k,_,rfl⟩ := power
    exact Nat.two_pow_pos k
  obtain ⟨pages,rfl⟩ := aligned
  rw [pageBase_div power (by omega),Nat.mul_add_div positive,Nat.add_mul,Nat.mul_comm pages]

theorem page_of (layout : Layout pageSize base nblocks blocksize) (inside : i < nblocks) :
    pageBase pageSize (base + i * blocksize) = base + i * blocksize / pageSize * pageSize :=
  page_at layout.power layout.aligned layout.bytes layout.fits inside

theorem request_large (large : ¬ blocksize < pageSize) (address : Nat) :
    request pageSize ⟨address,blocksize⟩ = (address,blocksize) := if_neg large

theorem request_page (layout : Layout pageSize base nblocks blocksize) (small : blocksize < pageSize) (inside : i < nblocks) :
    request pageSize ⟨base + i * blocksize,blocksize⟩ = (base + i * blocksize / pageSize * pageSize,pageSize) := by
  rw [request,if_pos small,page_of layout inside]

theorem pgOff_large (large : ¬ blocksize < pageSize) (address : Nat) : pgOff pageSize ⟨address,blocksize⟩ = 0 := if_neg large

theorem pgOff_page (layout : Layout pageSize base nblocks blocksize) (small : blocksize < pageSize) (inside : i < nblocks) :
    pgOff pageSize ⟨base + i * blocksize,blocksize⟩ = ((i * blocksize % pageSize : Nat) : Int) := by
  have bound := offset_below inside blocksize
  have fits := layout.fits
  have bytes := layout.bytes
  have ints := layout.small
  have parts := Nat.div_add_mod (i * blocksize) pageSize
  have order := Nat.div_mul_le_self (i * blocksize) pageSize
  rw [Nat.mul_comm] at parts
  rw [pgOff,if_pos small]
  change toInt (subSize (base + i * blocksize) (pageBase pageSize (base + i * blocksize))) = _
  rw [page_of layout inside,subSize_exact (by omega) (by omega)]
  have rest : base + i * blocksize - (base + i * blocksize / pageSize * pageSize) = i * blocksize % pageSize := by omega
  rw [rest,toInt_exact (by omega)]

def Requests (pageSize base nblocks blocksize : Nat) : Prop :=
  ∀ i < nblocks, pageSize ∣ (request pageSize ⟨base + i * blocksize,blocksize⟩).1

theorem page_request_aligned (layout : Layout pageSize base nblocks blocksize) (small : blocksize < pageSize) :
    Requests pageSize base nblocks blocksize := by
  intro i inside
  rw [request_page layout small inside]
  exact (Nat.dvd_add_right layout.aligned).mpr (Nat.dvd_mul_left _ _)

theorem large_request_aligned (layout : Layout pageSize base nblocks blocksize) (large : ¬ blocksize < pageSize)
    (fits : pageSize ∣ blocksize ∨ nblocks = 1) : Requests pageSize base nblocks blocksize := by
  intro i inside
  rw [request_large large]
  apply (Nat.dvd_add_right layout.aligned).mpr
  rcases fits with whole | single
  · exact Nat.dvd_trans whole (Nat.dvd_mul_left _ _)
  · obtain rfl : i = 0 := by omega
    simp

theorem attachable (layout : Layout pageSize base nblocks blocksize) (requests : Requests pageSize base nblocks blocksize)
    (honest : ∀ j i offset size, pageSize ∣ offset → (driver.attach j i offset size).isSome) :
    Attachable pageSize driver (initIov base nblocks blocksize) := by
  refine ⟨by rw [initIov_total]; exact layout.small,?_,?_⟩
  · intro v member small
    obtain ⟨i,known⟩ := List.mem_iff_getElem?.mp member
    obtain ⟨inside,rfl⟩ := block_index layout known
    have nonnull := layout.nonnull
    change pageBase pageSize (base + i * blocksize) ≠ 0
    rw [page_of layout inside]
    omega
  · intro j i v known
    obtain ⟨inside,rfl⟩ := block_index layout known
    exact honest j i _ _ (requests i inside)

end

-- The bytes [iov_base, iov_base + iov_len) of one block, read through the attachment
-- recorded for it; the attachment maps the whole pages that cover what was asked for.
def Inside (pageSize base recvBuf nblocks blocksize : Nat) : Act → Prop
  | .xpmemAttach offset _ _ => pageSize ∣ offset
  | .memcpySegment dst segment off len => ∃ i < nblocks, ∃ a, segment = .mapped a ∧ dst = recvBuf + i * blocksize ∧
      len = blocksize ∧ 0 ≤ off ∧ a.offset + off = ((base + i * blocksize : Nat) : Int) ∧ off + len ≤ covered pageSize a.size
  | _ => True

def InsideAttached (pageSize base recvBuf nblocks blocksize iters : Nat) (acts : List Stamped) : Prop :=
  (∀ event ∈ acts, Inside pageSize base recvBuf nblocks blocksize event.2) ∧
  ∀ j < iters, ∀ i < nblocks, ∃ segment off len, (some j,.memcpySegment (recvBuf + i * blocksize) segment off len) ∈ acts

section
variable {pageSize base nblocks blocksize recvBuf iters : Nat} {driver : XpmemDriver}

-- A block that does not cross a page boundary is read in the page attached for it.
theorem exact_inside (layout : Layout pageSize base nblocks blocksize) (requests : Requests pageSize base nblocks blocksize)
    (whole : blocksize < pageSize → ∀ i < nblocks, i * blocksize % pageSize + blocksize ≤ pageSize)
    {act : Act} (exact_act : Exact pageSize recvBuf (initIov base nblocks blocksize) act) :
    Inside pageSize base recvBuf nblocks blocksize act := by
  cases act with
  | xpmemAttach offset size result =>
      obtain ⟨v,member,asked,_⟩ := exact_act
      obtain ⟨i,known⟩ := List.mem_iff_getElem?.mp member
      obtain ⟨inside,rfl⟩ := block_index layout known
      have aligned := requests i inside
      rw [← asked] at aligned
      exact aligned
  | memcpySegment dst segment off len =>
      obtain ⟨i,v,known,⟨vaddr,rfl⟩,rfl,rfl,rfl⟩ := exact_act
      obtain ⟨inside,rfl⟩ := block_index layout known
      have positive := layout.positive
      refine ⟨i,inside,_,rfl,by rw [take_total nblocks (Nat.le_of_lt inside)],rfl,?_⟩
      by_cases small : blocksize < pageSize
      · have parts := Nat.div_add_mod (i * blocksize) pageSize
        rw [Nat.mul_comm] at parts
        have fits := whole small i inside
        rw [pgOff_page layout small inside,request_page layout small inside,covered_page positive]
        exact ⟨by omega,by simp only; omega,by simp only; omega⟩
      · have fits := le_covered positive blocksize
        rw [pgOff_large small,request_large small]
        exact ⟨by omega,by simp only; omega,by simp only; omega⟩
  | _ => trivial

-- The relation of block size, page size and buffer size that decides.
def Fits (pageSize bufsize blocksize : Nat) : Prop :=
  blocksize ∣ pageSize ∨ pageSize ∣ blocksize ∨ bufsize ≤ pageSize ∨ bufsize = blocksize

theorem fits_whole (positive : 0 < pageSize) (bytes : 0 < blocksize) (fits : Fits pageSize (nblocks * blocksize) blocksize)
    (small : blocksize < pageSize) : ∀ i < nblocks, i * blocksize % pageSize + blocksize ≤ pageSize := by
  intro i inside
  have bound := offset_below inside blocksize
  have low := Nat.mod_le (i * blocksize) pageSize
  rcases fits with divides | multiple | one_page | single
  · exact block_within divides positive i
  · have order := Nat.le_of_dvd bytes multiple
    omega
  · omega
  · omega

theorem fits_requests (layout : Layout pageSize base nblocks blocksize) (fits : Fits pageSize (nblocks * blocksize) blocksize) :
    Requests pageSize base nblocks blocksize := by
  by_cases small : blocksize < pageSize
  · exact page_request_aligned layout small
  · rcases Nat.eq_zero_or_pos nblocks with rfl | some_blocks
    · exact fun i inside => absurd inside (Nat.not_lt_zero i)
    · apply large_request_aligned layout small
      have bytes := layout.bytes
      have one_block : nblocks * blocksize ≤ blocksize → nblocks = 1 := fun bound => by
        have most : nblocks * blocksize ≤ 1 * blocksize := by omega
        have count := Nat.le_of_mul_le_mul_right most bytes
        omega
      rcases fits with divides | multiple | one_page | single
      · have order := Nat.le_of_dvd layout.positive divides
        exact .inl (by rw [show blocksize = pageSize by omega])
      · exact .inl multiple
      · exact .inr (one_block (by omega))
      · exact .inr (one_block (Nat.le_of_eq single))

-- A list of blocks of at least a page: the second one is attached where it starts.
theorem second_request (layout : Layout pageSize base nblocks blocksize) (large : ¬ blocksize < pageSize) (second : 1 < nblocks)
    (honest : ∀ j i offset size, pageSize ∣ offset → (driver.attach j i offset size).isSome) (apid : Nat) :
    ∃ result, .xpmemAttach (base + 1 * blocksize) blocksize result ∈ (attachSegments true pageSize driver
      (initIov base nblocks blocksize) nblocks 0 (XpmemState.start nblocks apid)).acts := by
  have granted : ∀ v, (initIov base nblocks blocksize)[0]? = some v → answer pageSize (driver.attach 0) 0 v ≠ .failed := by
    intro v known
    obtain ⟨_,rfl⟩ := block_index layout known
    have succeeded := honest 0 0 (base + 0 * blocksize) blocksize (by simpa using layout.aligned)
    rw [answer,request_large large]
    cases reached : driver.attach 0 0 (base + 0 * blocksize) blocksize with
    | none => rw [reached] at succeeded; cases succeeded
    | some vaddr => exact fun failed => by cases failed
  obtain ⟨s,before,attached⟩ := @attach_loop pageSize (driver.attach 0) (initIov base nblocks blocksize)
    {XpmemState.start nblocks apid with apid := driver.get 0} 1 (by rw [initIov_length]; omega)
    (by simp [XpmemState.start]) (by
      intro i below v known _
      obtain rfl : i = 0 := by omega
      exact granted v known)
  have known := block_at layout second
  have room : 1 < s.attachedSeglist.length := by rw [attached.length]; simpa [XpmemState.start] using second
  have asked := @attach_asked pageSize (driver.attach 0) (initIov base nblocks blocksize) s _ 1 known room
    (fun page => absurd page large) (fun page => absurd page large)
  rw [request_large large] at asked
  refine ⟨answer pageSize (driver.attach 0) 1 ⟨base + 1 * blocksize,blocksize⟩,?_⟩
  simp only [attachSegments,if_true,Run.emit_chain,Int.toNat_natCast]
  rw [forRange_resume before second]
  refine List.mem_cons_of_mem _ (List.mem_append_right _ (Run.chain_keeps _ _ ?_))
  rw [asked]
  exact List.mem_singleton.mpr rfl

theorem layout_count (layout : Layout pageSize base nblocks blocksize) :
    toInt (nblocks * blocksize / blocksize) = ((initIov base nblocks blocksize).length : Int) := by
  rw [initIov_length,Nat.mul_div_cancel _ layout.bytes]
  exact toInt_exact (Nat.le_trans (Nat.le_mul_of_pos_right _ layout.bytes) layout.small)

-- Blocks below the page size that do not tile a page: the one that crosses the end of the
-- first page runs over the end of its attachment.
theorem crossing_outside (layout : Layout pageSize base nblocks blocksize) (some_iteration : 0 < iters) (version : 0 ≤ driver.version)
    (honest : ∀ j i offset size, pageSize ∣ offset → (driver.attach j i offset size).isSome)
    (attachNow detachNow : Nat → Bool) (attaches : attachNow 0 = true) (apid : Nat) (small : blocksize < pageSize)
    (indivisible : ¬ blocksize ∣ pageSize) (pages : ¬ nblocks * blocksize ≤ pageSize) :
    ¬ InsideAttached pageSize base recvBuf nblocks blocksize iters (benchmarkXpmem .receiver attachNow detachNow iters pageSize
      recvBuf driver (fun _ => initIov base nblocks blocksize) (nblocks * blocksize) blocksize apid).acts := by
  rintro ⟨safe,_⟩
  have bytes := layout.bytes
  have positive := layout.positive
  obtain ⟨low,high⟩ := block_crossing bytes indivisible
  have inside : pageSize / blocksize < nblocks := Nat.lt_of_mul_lt_mul_right (a := blocksize) (by omega)
  have list := attachable layout (page_request_aligned layout small) honest
  obtain ⟨s,_,_,exacts,copies⟩ := @loop_exact attachNow detachNow pageSize recvBuf driver _ list attaches iters apid
  obtain ⟨segment,off,len,issued⟩ := copies 0 some_iteration _ _ (block_at layout inside)
  obtain ⟨k,v,known,⟨vaddr,rfl⟩,place,rfl,rfl⟩ := exacts _ issued
  obtain ⟨below,rfl⟩ := block_index layout known
  rw [take_total nblocks (Nat.le_of_lt inside),take_total nblocks (Nat.le_of_lt below)] at place
  obtain rfl : pageSize / blocksize = k := Nat.eq_of_mul_eq_mul_right bytes (by omega)
  rw [← layout_count layout] at issued
  obtain ⟨_,_,a,mapped,_,_,_,_,bound⟩ := safe _ (benchmark_keeps version issued)
  cases mapped
  rw [request_page layout small inside,pgOff_page layout small inside,covered_page positive,Nat.mod_eq_of_lt low] at bound
  simp only at bound
  omega

-- Blocks of at least a page that are no whole pages: the second one is attached inside a page.
theorem misaligned_outside (layout : Layout pageSize base nblocks blocksize) (some_iteration : 0 < iters) (version : 0 ≤ driver.version)
    (honest : ∀ j i offset size, pageSize ∣ offset → (driver.attach j i offset size).isSome)
    (attachNow detachNow : Nat → Bool) (attaches : attachNow 0 = true) (apid : Nat) (large : ¬ blocksize < pageSize)
    (no_multiple : ¬ pageSize ∣ blocksize) (second : 1 < nblocks) :
    ¬ InsideAttached pageSize base recvBuf nblocks blocksize iters (benchmarkXpmem .receiver attachNow detachNow iters pageSize
      recvBuf driver (fun _ => initIov base nblocks blocksize) (nblocks * blocksize) blocksize apid).acts := by
  rintro ⟨safe,_⟩
  obtain ⟨result,asked⟩ := second_request layout large second honest apid
  have issued : .xpmemAttach (base + 1 * blocksize) blocksize result ∈ (xpmemIteration .receiver (attachNow 0) (detachNow 0)
      pageSize recvBuf driver (initIov base nblocks blocksize) nblocks 0 (XpmemState.start nblocks apid)).acts := by
    rw [← attaches] at asked
    exact List.mem_cons_of_mem _ (Run.chain_keeps _ _ asked)
  have looped := @first_iteration_keeps .receiver attachNow detachNow iters pageSize recvBuf apid driver
    (fun _ => initIov base nblocks blocksize) some_iteration _ _ issued
  have narrow : ((nblocks : Nat) : Int) = toInt (nblocks * blocksize / blocksize) := by rw [layout_count layout,initIov_length]
  rw [narrow] at looped
  have aligned : pageSize ∣ base + 1 * blocksize := safe _ (benchmark_keeps version looped)
  rw [Nat.one_mul,Nat.dvd_add_right layout.aligned] at aligned
  exact no_multiple aligned

theorem fits_inside (layout : Layout pageSize base nblocks blocksize) (version : 0 ≤ driver.version)
    (honest : ∀ j i offset size, pageSize ∣ offset → (driver.attach j i offset size).isSome)
    (attachNow detachNow : Nat → Bool) (attaches : attachNow 0 = true) (apid : Nat) (fits : Fits pageSize (nblocks * blocksize) blocksize) :
    InsideAttached pageSize base recvBuf nblocks blocksize iters (benchmarkXpmem .receiver attachNow detachNow iters pageSize
      recvBuf driver (fun _ => initIov base nblocks blocksize) (nblocks * blocksize) blocksize apid).acts := by
  have list := attachable layout (fits_requests layout fits) honest
  obtain ⟨s,ended,_,exacts,copied⟩ := @loop_exact attachNow detachNow pageSize recvBuf driver _ list attaches iters apid
  rw [← layout_count layout] at ended exacts copied
  rw [benchmark_ended version ended]
  constructor
  · intro event member
    simp only [List.mem_cons,List.mem_append] at member
    rcases member with rfl | rfl | looped | rfl | released
    · trivial
    · trivial
    · exact exact_inside layout (fits_requests layout fits) (fits_whole layout.positive layout.bytes fits) (exacts event looped)
    · trivial
    · rw [release_mem released]; trivial
  · intro j below i inside
    obtain ⟨segment,off,len,issued⟩ := copied j below i _ (block_at layout inside)
    rw [take_total nblocks (Nat.le_of_lt inside)] at issued
    refine ⟨segment,off,len,?_⟩
    simp only [List.mem_cons,List.mem_append]
    exact .inr (.inr (.inl issued))

theorem inside_iff (layout : Layout pageSize base nblocks blocksize) (some_blocks : 0 < nblocks) (some_iteration : 0 < iters)
    (version : 0 ≤ driver.version)
    (honest : ∀ j i offset size, pageSize ∣ offset → (driver.attach j i offset size).isSome)
    (attachNow detachNow : Nat → Bool) (attaches : attachNow 0 = true) (apid : Nat) :
    InsideAttached pageSize base recvBuf nblocks blocksize iters (benchmarkXpmem .receiver attachNow detachNow iters pageSize
      recvBuf driver (fun _ => initIov base nblocks blocksize) (nblocks * blocksize) blocksize apid).acts ↔
    Fits pageSize (nblocks * blocksize) blocksize := by
  constructor
  · intro given
    apply Classical.byContradiction
    intro misfit
    simp only [Fits,not_or] at misfit
    obtain ⟨indivisible,no_multiple,pages,more⟩ := misfit
    by_cases small : blocksize < pageSize
    · exact crossing_outside layout some_iteration version honest attachNow detachNow attaches apid small indivisible pages given
    · have second : 1 < nblocks := by
        refine Classical.byContradiction fun single => more ?_
        rw [show nblocks = 1 by omega,Nat.one_mul]
      exact misaligned_outside layout some_iteration version honest attachNow detachNow attaches apid small no_multiple second given
  · exact fits_inside layout version honest attachNow detachNow attaches apid

end
-- For every buffer main admits, in blocks that divide it. Of XPMEM: an attach call at a
-- page boundary succeeds.
theorem xpmem_copies_inside {pageSize base bufsize blocksize iters : Nat} (power : ∃ k < 63, pageSize = 2 ^ k)
    (aligned : pageSize ∣ base) (nonnull : 0 < base) (fits : base + bufsize ≤ sizeMod) (bytes : 0 < blocksize)
    (filled : 0 < bufsize) (small : bufsize ≤ intMax) (divides : blocksize ∣ bufsize) (some_iteration : 0 < iters)
    {driver : XpmemDriver} (version : 0 ≤ driver.version)
    (honest : ∀ j i offset size, pageSize ∣ offset → (driver.attach j i offset size).isSome) (recvBuf apid : Nat) :
    (InsideAttached pageSize base recvBuf (bufsize / blocksize) blocksize iters (benchmarkXpmemNocache .receiver iters pageSize
      recvBuf driver (fun _ => initIov base (bufsize / blocksize) blocksize) bufsize blocksize apid).acts ↔
      Fits pageSize bufsize blocksize) ∧
    (InsideAttached pageSize base recvBuf (bufsize / blocksize) blocksize iters (benchmarkXpmemCached .receiver iters pageSize
      recvBuf driver (fun _ => initIov base (bufsize / blocksize) blocksize) bufsize blocksize apid).acts ↔
      Fits pageSize bufsize blocksize) := by
  have whole := Nat.div_mul_cancel divides
  have layout : Layout pageSize base (bufsize / blocksize) blocksize :=
    ⟨power,aligned,nonnull,bytes,by rw [whole]; exact small,by rw [whole]; exact fits⟩
  have some_blocks : 0 < bufsize / blocksize := Nat.div_pos (Nat.le_of_dvd filled divides) bytes
  constructor
  · have nocache := @inside_iff pageSize base _ blocksize recvBuf iters driver layout some_blocks some_iteration version honest
      (fun _ => true) (fun _ => true) rfl apid
    rw [whole] at nocache
    exact nocache
  · have cached := @inside_iff pageSize base _ blocksize recvBuf iters driver layout some_blocks some_iteration version honest
      (fun j => useCache && j == 0) (fun j => !useCache || j+1 == iters) rfl apid
    rw [whole] at cached
    exact cached

theorem xpmem_copies_inside_quarter_pages : InsideAttached 4096 16384 65536 16 1024 110 (benchmarkXpmemCached .receiver 110 4096 65536
    ⟨1,fun _ => 7,fun _ _ offset _ => some (1048576 + offset)⟩ (fun _ => initIov 16384 16 1024) 16384 1024 0).acts :=
  (@xpmem_copies_inside 4096 16384 16384 1024 110 ⟨12,by decide,rfl⟩ (by decide) (by decide) (by decide) (by decide) (by decide)
    (by decide) (by decide) (by decide) ⟨1,fun _ => 7,fun _ _ offset _ => some (1048576 + offset)⟩ (by decide)
    (fun _ _ _ _ _ => rfl) 65536 0).2.mpr (.inl (by decide))

-- Blocks of three quarters of a page: the second one runs over the end of the page
-- attached. Blocks of one and a half pages: the second one starts inside a page.
theorem xpmem_copies_outside :
    ¬ InsideAttached 4096 16384 65536 4 3072 110 (benchmarkXpmemNocache .receiver 110 4096 65536
      ⟨1,fun _ => 7,fun _ _ offset _ => some (1048576 + offset)⟩ (fun _ => initIov 16384 4 3072) 12288 3072 0).acts ∧
    ¬ InsideAttached 4096 16384 65536 2 6144 110 (benchmarkXpmemCached .receiver 110 4096 65536
      ⟨1,fun _ => 7,fun _ _ offset _ => some (1048576 + offset)⟩ (fun _ => initIov 16384 2 6144) 12288 6144 0).acts := by
  constructor
  · have exact_domain := @inside_iff 4096 16384 4 3072 65536 110 ⟨1,fun _ => 7,fun _ _ offset _ => some (1048576 + offset)⟩
      ⟨⟨12,by decide,rfl⟩,by decide,by decide,by decide,by decide,by decide⟩ (by decide) (by decide) (by decide)
      (fun _ _ _ _ _ => rfl) (fun _ => true) (fun _ => true) rfl 0
    exact fun inside => absurd (exact_domain.mp inside) (by unfold Fits; decide)
  · have exact_domain := @inside_iff 4096 16384 2 6144 65536 110 ⟨1,fun _ => 7,fun _ _ offset _ => some (1048576 + offset)⟩
      ⟨⟨12,by decide,rfl⟩,by decide,by decide,by decide,by decide,by decide⟩ (by decide) (by decide) (by decide)
      (fun _ _ _ _ _ => rfl) (fun j => useCache && j == 0) (fun j => !useCache || j+1 == 110) rfl 0
    exact fun inside => absurd (exact_domain.mp inside) (by unfold Fits; decide)

end MpidtBench.XpmemBounds
