import WllOs.Fs.VfatImage
import WllOs.Fs.Theorems.Objects

namespace WllOs.Fs.Vfat

open VfatVolume

-- What `open` has checked of the fields, and how large their types let them be.
structure BootSector.Valid (sector : BootSector) : Prop where
  bytesPerSector    : 512 ≤ sector.bytesPerSector ∧ sector.bytesPerSector ≤ 4096
  sectorsPerCluster : 1 ≤ sector.sectorsPerCluster ∧ sector.sectorsPerCluster ≤ 128
  reservedSectors   : 0 < sector.reservedSectors ∧ sector.reservedSectors < 2 ^ 16
  rootEntryCount    : sector.rootEntryCount < 2 ^ 16
  totalSectors      : sector.totalSectors < 2 ^ 32

theorem readU16Le_lt {buf : List UInt8} {off value : Nat} (h : readU16Le buf off = some value) : value < 2 ^ 16 := by
  simp only [readU16Le, Option.ite_none_right_eq_some, Option.some.injEq] at h
  have hlt := fromLeBytes_lt (Buffer.slice buf off 2)
  rw [h.right, Buffer.length_slice, Nat.min_eq_left (by omega)] at hlt
  exact hlt

theorem readU32Le_lt {buf : List UInt8} {off value : Nat} (h : readU32Le buf off = some value) : value < 2 ^ 32 := by
  simp only [readU32Le, Option.ite_none_right_eq_some, Option.some.injEq] at h
  have hlt := fromLeBytes_lt (Buffer.slice buf off 4)
  rw [h.right, Buffer.length_slice, Nat.min_eq_left (by omega)] at hlt
  exact hlt

theorem parse_valid {boot : List UInt8} {sector : BootSector} (h : BootSector.parse boot = some sector) :
    sector.Valid := by
  simp only [BootSector.parse, Option.bind_eq_bind, Option.bind_eq_some_iff] at h
  obtain ⟨bytesPerSector, _, reserved, hreserved, rootEntryCount, hroot, total16, htotal16, fatSize16, _, total32,
    htotal32, fatSize32, _, h⟩ := h
  simp only [Option.ite_none_left_eq_some, Option.some.injEq] at h
  obtain ⟨hv, ht, rfl⟩ := h
  simp [validPowerOfTwo] at hv
  obtain ⟨⟨⟨hb, hs⟩, hr⟩, _⟩ := hv
  have := readU16Le_lt htotal16
  have := readU32Le_lt htotal32
  constructor
  case bytesPerSector => exact hb.left
  case sectorsPerCluster =>
    rw [List.getD_eq_getElem?_getD]
    exact ⟨Nat.one_le_iff_ne_zero.mpr hs.left.left, hs.left.right⟩
  case reservedSectors => exact ⟨Nat.pos_of_ne_zero hr, readU16Le_lt hreserved⟩
  case rootEntryCount => exact readU16Le_lt hroot
  case totalSectors =>
    change (if total16 ≠ 0 then total16 else total32) < 2 ^ 32
    split <;> omega

theorem mount_ok {device : Device} {sector : BootSector} {geometry : Geometry}
    (h : device.mount = .ok (sector, geometry)) : sector.Valid ∧ sector.geometry = some geometry := by
  have ⟨boot, _, h⟩ := Fallible.bind_ok h
  have ⟨_, h⟩ := Fallible.guard_ok h
  cases hp : BootSector.parse boot
  case none => simp [hp] at h
  case some parsed =>
    rw [hp] at h
    cases hg : parsed.geometry
    case none => simp [hg] at h
    case some computed =>
      simp only [hg] at h
      cases h
      exact ⟨parse_valid hp, hg⟩

namespace BootSector.Valid

variable {sector : BootSector} {geometry : Geometry} (h : sector.Valid)
include h

-- The first data sector is that of the layout, up to overflows.
theorem geometry_some (hg : sector.geometry = some geometry) :
    geometry.firstDataSector = sector.firstDataSector % 2 ^ 32 ∧
      geometry.rootDirSector = (sector.reservedSectors + sector.fatSectors) % 2 ^ 32 ∧
      geometry.firstDataSector < sector.totalSectors ∧
      geometry.clusterCount = (sector.totalSectors - geometry.firstDataSector) / sector.sectorsPerCluster := by
  have := h.rootEntryCount
  have := h.bytesPerSector
  have hroot : U32.wrappingAdd (U32.wrappingMul sector.rootEntryCount 32) sector.bytesPerSector =
      sector.rootEntryCount * 32 + sector.bytesPerSector := by
    rw [U32.wrappingMul_eq (by omega), U32.wrappingAdd_eq (by omega)]
  simp only [BootSector.geometry, hroot, Option.ite_none_left_eq_some] at hg
  obtain ⟨ht, _, _, hg⟩ := hg
  cases hg
  refine ⟨?_, ?_, Nat.not_le.mp ht, rfl⟩
  all_goals
    simp only [U32.wrappingAdd, U32.wrappingMul, BootSector.firstDataSector, rootDirSectors, fatSectors,
      Nat.mod_add_mod, Nat.add_mod_mod]

-- The computation is exact if and only if the sum of the layout fits into 32 bits.
theorem exact_iff (hg : sector.geometry = some geometry) :
    geometry.Exact sector ↔ sector.firstDataSector < 2 ^ 32 := by
  have ⟨hfirst, hroot, hlt, hcount⟩ := h.geometry_some hg
  constructor
  case mp =>
    intro he
    rw [← he.firstDataSector, hfirst]
    exact Nat.mod_lt _ (Nat.two_pow_pos 32)
  case mpr =>
    intro hsum
    rw [Nat.mod_eq_of_lt hsum] at hfirst
    have hle : sector.reservedSectors + sector.fatSectors ≤ sector.firstDataSector := Nat.le_add_right ..
    constructor
    case rootDirSector => rw [hroot, Nat.mod_eq_of_lt (Nat.lt_of_le_of_lt hle hsum)]
    case firstDataSector => exact hfirst
    case below => rw [← hfirst]; exact hlt
    case clusterCount => rw [hcount, hfirst]; rfl

end BootSector.Valid

namespace Image

variable {image : Image} {cluster left start : Nat} {bytes data : List UInt8} {event : ReadEvent}

theorem valid : image.sector.Valid :=
  (mount_ok image.accepted).left

theorem toOption_some {x : Except SysErrNo (List UInt8)} : x.toOption = some bytes ↔ x = .ok bytes := by
  cases x <;> simp [Except.toOption]

theorem readCluster_ok :
    (image.volume.readCluster cluster).result = .ok bytes ↔ image.cluster? cluster = some bytes := by
  rw [readCluster, Traced.bind_result_ok, cluster?]
  cases ho : image.volume.clusterOffset cluster
  case error err => simp [Traced.note, Except.toOption]
  case ok offset =>
    simp only [Traced.note, Except.ok.injEq, exists_eq_left', Except.toOption, Option.bind_some]
    exact toOption_some.symm

theorem nextCluster_ok {next : Nat} :
    (image.volume.nextCluster cluster).result = .ok next ↔ image.fatEntry? cluster = some next := by
  rw [nextCluster, Traced.bind_result_ok, fatEntry?, Option.map_eq_some_iff]
  simp only [toOption_some, Traced.pure_result, Except.ok.injEq]
  rfl

theorem follow_some {next : Nat} : image.follow cluster = some next ↔
    2 ≤ cluster ∧ cluster < END_OF_CHAIN ∧ (∃ bytes, image.cluster? cluster = some bytes) ∧
      image.fatEntry? cluster = some next := by
  simp only [follow, Option.ite_none_right_eq_some, Option.isSome_iff_exists, and_assoc]

-- The number does not stop the loop.
abbrev Continues (cluster : Nat) : Prop :=
  2 ≤ cluster ∧ cluster < END_OF_CHAIN

theorem readChainFrom_stop (h : ¬Continues start) : image.volume.readChainFrom left start = pure [] := by
  rw [readChainFrom, if_pos h]

-- One round of the loop.
theorem readChainFrom_round (h : Continues start) : (image.volume.readChainFrom left start).result = .ok data ↔
    ∃ bytes next rest more, image.cluster? start = some bytes ∧ image.fatEntry? start = some next ∧
      left = more + 1 ∧ (image.volume.readChainFrom more next).result = .ok rest ∧ data = bytes ++ rest := by
  rw [readChainFrom, if_neg (not_not.mpr h)]
  simp only [Traced.bind_result_ok, readCluster_ok, nextCluster_ok]
  cases left
  case zero => simp [Traced.fail]
  case succ left =>
    simp only [Traced.bind_result_ok, Traced.pure_result, Except.ok.injEq, Nat.add_right_cancel_iff]
    constructor
    case mp =>
      rintro ⟨bytes, hc, next, hn, rest, hr, rfl⟩
      exact ⟨bytes, next, rest, left, hc, hn, rfl, hr, rfl⟩
    case mpr =>
      rintro ⟨bytes, next, rest, _, hc, hn, rfl, hr, rfl⟩
      exact ⟨bytes, hc, next, hn, rest, hr, rfl⟩

theorem content_cons {clusters : List Nat} (h : image.cluster? cluster = some bytes) :
    image.content (cluster :: clusters) = bytes ++ image.content clusters := by
  simp [content, clusterData, h]

-- Reading a chain succeeds if following it comes to an end soon enough.
theorem readChainFrom_ok : (image.volume.readChainFrom left start).result = .ok data ↔
    ∃ clusters last, Chain image.follow start clusters last ∧ ¬Continues last ∧ clusters.length ≤ left ∧
      data = image.content clusters := by
  constructor
  case mp =>
    induction left using Nat.strong_induction_on generalizing start data
    case h left hi =>
      intro h
      by_cases hc : Continues start
      case neg =>
        rw [readChainFrom_stop hc] at h
        cases h
        exact ⟨[], start, .nil, hc, Nat.zero_le _, rfl⟩
      case pos =>
        obtain ⟨bytes, next, rest, more, hbytes, hnext, rfl, hr, rfl⟩ := (readChainFrom_round hc).mp h
        obtain ⟨clusters, last, hchain, hl, hlen, rfl⟩ := hi more (Nat.lt_succ_self _) hr
        have hf : image.follow start = some next := follow_some.mpr ⟨hc.left, hc.right, ⟨bytes, hbytes⟩, hnext⟩
        exact ⟨start :: clusters, last, .cons hf hchain, hl, Nat.succ_le_succ hlen, (content_cons hbytes).symm⟩
  case mpr =>
    rintro ⟨clusters, last, hchain, hl, hlen, rfl⟩
    induction hchain generalizing left
    case nil => rw [readChainFrom_stop hl]; rfl
    case cons start next last clusters hf _ hi =>
      obtain ⟨h2, hend, ⟨bytes, hbytes⟩, hnext⟩ := follow_some.mp hf
      obtain ⟨more, rfl⟩ := Nat.exists_eq_add_of_lt (Nat.lt_of_lt_of_le (Nat.succ_pos _) hlen)
      rw [Nat.zero_add] at hlen ⊢
      exact (readChainFrom_round ⟨h2, hend⟩).mpr ⟨bytes, next, _, more, hbytes, hnext, rfl,
        hi hl (Nat.le_of_succ_le_succ hlen), content_cons hbytes⟩

-- What is done to the device for one cluster.
def Touches (image : Image) (cluster : Nat) (event : ReadEvent) : Prop :=
  event ∈ (image.volume.readCluster cluster).trace ∨
    (∃ bytes, image.cluster? cluster = some bytes) ∧ event ∈ (image.volume.nextCluster cluster).trace

theorem mem_trace_round (h : Continues start) : event ∈ (image.volume.readChainFrom left start).trace ↔
    image.Touches start event ∨ ∃ next more, image.follow start = some next ∧ left = more + 1 ∧
      event ∈ (image.volume.readChainFrom more next).trace := by
  rw [readChainFrom, if_neg (not_not.mpr h)]
  simp only [Traced.mem_bind, readCluster_ok, nextCluster_ok, Touches, follow_some]
  cases left
  case zero =>
    simp [Traced.fail]
  case succ left =>
    simp only [Traced.mem_bind, Traced.pure_trace, List.not_mem_nil, and_false, exists_false, or_false,
      Nat.add_right_cancel_iff]
    constructor
    case mp =>
      rintro (ht | ⟨bytes, hb, ht | ⟨next, hn, ht⟩⟩)
      case inl => exact .inl (.inl ht)
      case inr.inl => exact .inl (.inr ⟨⟨bytes, hb⟩, ht⟩)
      case inr.inr => exact .inr ⟨next, left, ⟨h.left, h.right, ⟨bytes, hb⟩, hn⟩, rfl, ht⟩
    case mpr =>
      rintro ((ht | ⟨⟨bytes, hb⟩, ht⟩) | ⟨next, _, ⟨_, _, ⟨bytes, hb⟩, hn⟩, rfl, ht⟩)
      case inl.inl => exact .inl ht
      case inl.inr => exact .inr ⟨bytes, hb, .inl ht⟩
      case inr => exact .inr ⟨bytes, hb, .inr ⟨next, hn, ht⟩⟩

-- The loop touches the clusters that following the numbers gets to.
theorem mem_trace_readChainFrom : event ∈ (image.volume.readChainFrom left start).trace ↔
    ∃ clusters cluster, Chain image.follow start clusters cluster ∧ clusters.length ≤ left ∧ Continues cluster ∧
      image.Touches cluster event := by
  constructor
  case mp =>
    induction left using Nat.strong_induction_on generalizing start
    case h left hi =>
      intro h
      by_cases hc : Continues start
      case neg =>
        rw [readChainFrom_stop hc] at h
        cases h
      case pos =>
        obtain ht | ⟨next, more, hf, rfl, hr⟩ := (mem_trace_round hc).mp h
        case inl => exact ⟨[], start, .nil, Nat.zero_le _, hc, ht⟩
        case inr =>
          obtain ⟨clusters, cluster, hchain, hlen, hc, ht⟩ := hi more (Nat.lt_succ_self _) hr
          exact ⟨start :: clusters, cluster, .cons hf hchain, Nat.succ_le_succ hlen, hc, ht⟩
  case mpr =>
    rintro ⟨clusters, cluster, hchain, hlen, hc, ht⟩
    induction hchain generalizing left
    case nil => exact (mem_trace_round hc).mpr (.inl ht)
    case cons start next last clusters hf _ hi =>
      obtain ⟨h2, hend, _⟩ := follow_some.mp hf
      obtain ⟨more, rfl⟩ := Nat.exists_eq_add_of_lt (Nat.lt_of_lt_of_le (Nat.succ_pos _) hlen)
      rw [Nat.zero_add] at hlen ⊢
      exact (mem_trace_round ⟨h2, hend⟩).mpr (.inr ⟨next, more, hf, rfl, hi (Nat.le_of_succ_le_succ hlen) hc ht⟩)

theorem length_readCluster : (image.volume.readCluster cluster).trace.length ≤ 2 := by
  rw [readCluster]
  exact Traced.length_bind_le (n := 1) (m := 1) (Nat.le_refl 1) fun _ => Nat.le_refl 1

theorem length_nextCluster : (image.volume.nextCluster cluster).trace.length ≤ 1 := by
  rw [nextCluster]
  exact Traced.length_bind_le (n := 1) (m := 0) (Nat.le_refl 1) fun _ => Nat.le_refl 0

-- Every walk ends.
theorem length_readChainFrom : (image.volume.readChainFrom left start).trace.length ≤ 3 * (left + 1) := by
  induction left generalizing start
  all_goals
    rw [readChainFrom]
    split
  case zero.isTrue | succ.isTrue => exact Nat.zero_le _
  case zero.isFalse =>
    refine Traced.length_bind_le (m := 1 + 0) length_readCluster fun _ => ?_
    exact Traced.length_bind_le length_nextCluster fun _ => Nat.le_refl 0
  case succ.isFalse left hi _ =>
    have hround : 2 + (1 + (3 * (left + 1) + 0)) ≤ 3 * (left + 1 + 1) := by omega
    refine Nat.le_trans (Traced.length_bind_le length_readCluster fun _ => ?_) hround
    exact Traced.length_bind_le length_nextCluster fun _ => Traced.length_bind_le hi fun _ => Nat.le_refl 0

-- The offset of a sector fits into 64 bits.
theorem offset_le {sector : BootSector} {n : Nat} (h : sector.Valid) (hn : n < 2 ^ 32) :
    n * sector.bytesPerSector ≤ Usize.max := by
  have hle : n * sector.bytesPerSector ≤ (2 ^ 32 - 1) * 4096 :=
    Nat.mul_le_mul (Nat.le_pred_of_lt hn) h.bytesPerSector.right
  have hmax : (2 ^ 32 - 1) * 4096 ≤ Usize.max := by
    simp only [Usize.max]
    omega
  exact Nat.le_trans hle hmax

variable (hx : image.geometry.Exact image.sector)
include hx

-- The offset of a cluster is that of the layout, or the number of its first sector has more than 32 bits.
theorem clusterOffset_exact (h2 : 2 ≤ cluster) : image.volume.clusterOffset cluster =
    if image.sector.firstDataSector + (cluster - 2) * image.sector.sectorsPerCluster < 2 ^ 32 then
      .ok ((image.sector.firstDataSector + (cluster - 2) * image.sector.sectorsPerCluster) *
        image.sector.bytesPerSector)
    else .error .EINVAL := by
  have hv := image.valid
  have hfirst : image.volume.firstDataSector = image.sector.firstDataSector := hx.firstDataSector
  have hpos : 0 < image.sector.firstDataSector := by
    have := hv.reservedSectors
    simp only [BootSector.firstDataSector]
    omega
  have hs : image.volume.sectorsPerCluster = image.sector.sectorsPerCluster := rfl
  rw [clusterOffset, if_neg (Nat.not_lt.mpr h2), hfirst, U32.checkedAdd_saturatingMul hpos, hs]
  by_cases hlt : image.sector.firstDataSector + (cluster - 2) * image.sector.sectorsPerCluster < 2 ^ 32
  case neg => rw [if_neg hlt, if_neg hlt]
  case pos =>
    rw [if_pos hlt, if_pos hlt]
    exact if_pos (offset_le hv hlt)

omit hx in
theorem touches_iff : image.Touches cluster event ↔ event = .clusterOffset cluster ∨
    (∃ offset, image.volume.clusterOffset cluster = .ok offset ∧
      event = .readCluster cluster offset image.volume.clusterBytes) ∨
    ((image.cluster? cluster).isSome ∧
      event = .readFat cluster (image.volume.fatOffset cluster) image.geometry.fatKind.width) := by
  simp only [Touches, readCluster, nextCluster, Traced.mem_bind, Option.isSome_iff_exists, Traced.note,
    List.mem_singleton, Traced.pure_trace, List.not_mem_nil, and_false, exists_false, or_false, or_assoc]
  rfl

-- The last sector of a cluster is one of the volume if its number is that of a cluster.
theorem cluster_below (h2 : 2 ≤ cluster) :
    image.sector.firstDataSector + (cluster - 2) * image.sector.sectorsPerCluster + image.sector.sectorsPerCluster ≤
      image.sector.totalSectors ↔ cluster < image.geometry.clusterCount + 2 := by
  have hpos := image.valid.sectorsPerCluster.left
  have hbelow := hx.below
  have hsucc : (cluster - 2) * image.sector.sectorsPerCluster + image.sector.sectorsPerCluster =
      (cluster - 2 + 1) * image.sector.sectorsPerCluster := (Nat.succ_mul _ _).symm
  have hdiv := @Nat.le_div_iff_mul_le image.sector.sectorsPerCluster (cluster - 2 + 1)
    (image.sector.totalSectors - image.sector.firstDataSector) hpos
  rw [hx.clusterCount, BootSector.clusterCount]
  omega

theorem inside_clusterOffset (h2 : 2 ≤ cluster) (hlt : cluster < image.geometry.clusterCount + 2) :
    image.sector.firstDataSector + (cluster - 2) * image.sector.sectorsPerCluster < 2 ^ 32 := by
  have := (cluster_below hx h2).mpr hlt
  have := image.valid.totalSectors
  have := image.valid.sectorsPerCluster.left
  omega

-- What is done for a cluster stays inside if and only if the number is that of a cluster, with an entry in the first
-- FAT if the device has the cluster.
theorem touches_inside (hc : Continues cluster) :
    (∀ event, image.Touches cluster event → event.Inside image.sector image.geometry.fatKind) ↔
      cluster < image.geometry.clusterCount + 2 ∧ ((image.cluster? cluster).isSome →
        (cluster + 1) * image.geometry.fatKind.width ≤ image.sector.fatSizeSectors * image.sector.bytesPerSector) := by
  have hv := image.valid
  have hpos : 0 < image.sector.bytesPerSector := Nat.lt_of_lt_of_le (by decide) hv.bytesPerSector.left
  constructor
  case mp =>
    intro h
    obtain ⟨_, _, hlt, _⟩ := h _ (touches_iff.mpr (.inl rfl))
    have hoffset := clusterOffset_exact hx hc.left
    rw [if_pos hlt] at hoffset
    constructor
    case left =>
      obtain ⟨_, _, hle⟩ := h _ (touches_iff.mpr (.inr (.inl ⟨_, hoffset, rfl⟩)))
      rw [clusterBytes] at hle
      have hmul : (image.sector.firstDataSector + (cluster - 2) * image.sector.sectorsPerCluster +
          image.sector.sectorsPerCluster) * image.sector.bytesPerSector ≤
            image.sector.totalSectors * image.sector.bytesPerSector := by
        rw [Nat.add_mul _ image.sector.sectorsPerCluster]
        exact hle
      exact (cluster_below hx hc.left).mp (Nat.le_of_mul_le_mul_right hmul hpos)
    case right =>
      intro hsome
      obtain ⟨_, _, hle⟩ := h _ (touches_iff.mpr (.inr (.inr ⟨hsome, rfl⟩)))
      have hfat : image.volume.fatOffset cluster = image.sector.reservedSectors * image.sector.bytesPerSector +
          cluster * image.geometry.fatKind.width := rfl
      rw [hfat, Nat.add_mul] at hle
      rw [Nat.succ_mul]
      omega
  case mpr =>
    intro ⟨hlt, hfat⟩ event ht
    have hsum := inside_clusterOffset hx hc.left hlt
    have hoffset := clusterOffset_exact hx hc.left
    rw [if_pos hsum] at hoffset
    rcases touches_iff.mp ht with rfl | ⟨offset, ho, rfl⟩ | ⟨hsome, rfl⟩
    case inl => exact ⟨hc.left, Nat.lt_of_le_of_lt (Nat.le_add_left ..) hsum, hsum, offset_le hv hsum⟩
    case inr.inl =>
      cases hoffset.symm.trans ho
      refine ⟨rfl, Nat.mul_le_mul_right _ (Nat.le_add_right ..), ?_⟩
      have hmul := Nat.mul_le_mul_right image.sector.bytesPerSector ((cluster_below hx hc.left).mpr hlt)
      rw [Nat.add_mul _ image.sector.sectorsPerCluster] at hmul
      exact hmul
    case inr.inr =>
      have hle := hfat hsome
      have hwidth : image.geometry.fatKind.width ≤ 4 := by
        cases image.geometry.fatKind <;> decide
      have hroom : image.volume.fatOffset cluster ≤ Usize.max := by
        have hr : image.sector.reservedSectors * image.sector.bytesPerSector ≤ (2 ^ 16 - 1) * 4096 :=
          Nat.mul_le_mul (Nat.le_pred_of_lt hv.reservedSectors.right) hv.bytesPerSector.right
        have hw : cluster * image.geometry.fatKind.width ≤ END_OF_CHAIN * 4 :=
          Nat.mul_le_mul (Nat.le_of_lt hc.right) hwidth
        have he : image.volume.fatOffset cluster = image.sector.reservedSectors * image.sector.bytesPerSector +
          cluster * image.geometry.fatKind.width := rfl
        simp only [Usize.max, END_OF_CHAIN] at hw ⊢
        omega
      refine ⟨rfl, hroom, ?_⟩
      have he : image.volume.fatOffset cluster = image.sector.reservedSectors * image.sector.bytesPerSector +
        cluster * image.geometry.fatKind.width := rfl
      rw [he, Nat.add_mul]
      rw [Nat.succ_mul] at hle
      omega

end Image

-- A walk stays inside if and only if the numbers it gets to are those of clusters.
theorem Device.walk_safe_iff (device : Device) (start : Nat) : device.Safe start ↔ device.SafeWhen start := by
  have hwalk (image : Image) (hx : image.geometry.Exact image.sector) :
      (∀ event ∈ (image.volume.readClusterChain start).trace, event.Inside image.sector image.geometry.fatKind) ↔
        image.WalkInside start := by
    simp only [readClusterChain, Image.mem_trace_readChainFrom]
    constructor
    case mp =>
      intro h clusters cluster hchain hlen h2 hend
      exact (Image.touches_inside hx ⟨h2, hend⟩).mp fun event ht =>
        h event ⟨clusters, cluster, hchain, hlen, ⟨h2, hend⟩, ht⟩
    case mpr =>
      intro h event ⟨clusters, cluster, hchain, hlen, hc, ht⟩
      exact (Image.touches_inside hx hc).mpr (h clusters cluster hchain hlen hc.left hc.right) event ht
  constructor
  case mp =>
    intro h image hd
    have ⟨hx, hinside, _⟩ := h image hd
    have ⟨hv, hg⟩ := mount_ok image.accepted
    exact ⟨(hv.exact_iff hg).mp hx, (hwalk image hx).mp hinside⟩
  case mpr =>
    intro h image hd
    have ⟨hsum, hinside⟩ := h image hd
    have ⟨hv, hg⟩ := mount_ok image.accepted
    have hx := (hv.exact_iff hg).mpr hsum
    exact ⟨hx, (hwalk image hx).mpr hinside, Image.length_readChainFrom⟩

-- A volume of 8192 sectors with two FATs of 2^31 sectors each. The product is 0 in 32 bits.
def wrapping : Device where
  range := ⟨0, some (8192 * 512), by simp [Usize.max]⟩
  raw.fault _ _ := none
  raw.byte pos :=
    match pos with
    | 12  => 0x02
    | 13  => 1
    | 14  => 1
    | 16  => 2
    | 33  => 0x20
    | 39  => 0x80
    | 510 => 0x55
    | 511 => 0xaa
    | _   => 0

set_option maxRecDepth 8000 in
theorem wrapping_unsafe : ¬wrapping.Safe 2 := by
  have haccepted : wrapping.mount = .ok (⟨512, 1, 1, 2, 0, 8192, 2 ^ 31, 0⟩, ⟨1, 1, 8191, .fat16⟩) := by decide_cbv
  have hsum : ¬BootSector.firstDataSector ⟨512, 1, 1, 2, 0, 8192, 2 ^ 31, 0⟩ < 2 ^ 32 := by decide
  intro h
  have hx := (h ⟨wrapping, _, _, haccepted⟩ rfl).left
  obtain ⟨hv, hg⟩ := mount_ok haccepted
  exact hsum ((hv.exact_iff hg).mp hx)

end WllOs.Fs.Vfat
