/-
`ip_checksum`: the Internet checksum of a header.

The words are read as the machine has them, low byte first, and swapped before they are added,
so the accumulator is a sum of big-endian words. It starts from all ones, the other zero of
ones' complement, and takes the carry back at every step. The result is swapped again, so its
bytes in memory are in network order.
-/
import Mathlib.Tactic.IntervalCases
import Pspin.OnesComplement

set_option autoImplicit false

namespace Pspin.IpChecksum

/-! ## Words and bytes -/

/-- The bytes of a halfword in the other order. -/
def bswap_16 (v : BitVec 16) : BitVec 16 := ((v &&& 0xff) <<< 8) ||| (v >>> 8)

/-- The cores are little-endian. -/
def htons (v : BitVec 16) : BitVec 16 := bswap_16 v
def ntohs (v : BitVec 16) : BitVec 16 := bswap_16 v

/-- The word at two bytes of memory, the low byte first. -/
def load_16 (lo hi : BitVec 8) : BitVec 16 := hi ++ lo

/-- The bytes of a word in memory. -/
def store_16 (v : BitVec 16) : List (BitVec 8) := [v.setWidth 8, (v >>> 8).setWidth 8]

/-- The bytes of a 32-bit word in memory. -/
def store_32 (v : BitVec 32) : List (BitVec 8) :=
  [v.setWidth 8, (v >>> 8).setWidth 8, (v >>> 16).setWidth 8, (v >>> 24).setWidth 8]

/-! ## The checksum -/

/-- The words that are read: the 16-bit blocks, and a partial block at the end. -/
def words : List (BitVec 8) → List (BitVec 16)
  | a :: b :: data => load_16 a b :: words data
  | [a] => [load_16 a 0]
  | [] => []

/-- One step of the accumulator. -/
def accumulate (acc : BitVec 32) (word : BitVec 16) : BitVec 32 :=
  let acc := acc + (ntohs word).setWidth 32
  if acc > 0xffff then acc - 0xffff else acc

/-- The accumulator after the first `n` words. -/
def acc_after (data : List (BitVec 8)) (n : ℕ) : BitVec 32 :=
  ((words data).take n).foldl accumulate 0xffff

/-- `ip_checksum`: the sum begins with all ones, and its complement is returned in the order of the
network. -/
def ip_checksum (data : List (BitVec 8)) : BitVec 16 :=
  let acc := (words data).foldl accumulate 0xffff
  htons ((~~~acc).setWidth 16)

/-! ## Headers -/

/-- The headers as the source declares them, each field in the order of the network: a MAC address.
-/
structure mac_addr_t where
  data : Fin 6 → BitVec 8

structure eth_hdr_t where
  dest : mac_addr_t
  src : mac_addr_t
  length : BitVec 16

structure ip_hdr_t where
  ihl : BitVec 4
  version : BitVec 4
  tos : BitVec 8
  length : BitVec 16
  identification : BitVec 16
  offset : BitVec 16
  ttl : BitVec 8
  protocol : BitVec 8
  checksum : BitVec 16
  source_id : BitVec 32
  dest_id : BitVec 32

structure udp_hdr_t where
  src_port : BitVec 16
  dst_port : BitVec 16
  length : BitVec 16
  checksum : BitVec 16

structure slmp_hdr_t where
  flags : BitVec 16
  msg_id : BitVec 32
  pkt_off : BitVec 32

/-- All of them, as they precede the payload. -/
structure slmp_pkt_hdr_t where
  eth_hdr : eth_hdr_t
  ip_hdr : ip_hdr_t
  udp_hdr : udp_hdr_t
  slmp_hdr : slmp_hdr_t

/-- The header in memory; of the two fields of its first byte, `ihl` is the low one. -/
def ip_hdr_t.bytes (h : ip_hdr_t) : List (BitVec 8) :=
  [h.version ++ h.ihl, h.tos] ++ store_16 h.length
    ++ store_16 h.identification ++ store_16 h.offset
    ++ [h.ttl, h.protocol] ++ store_16 h.checksum
    ++ store_32 h.source_id ++ store_32 h.dest_id

/-- Sizes of the packed structs, in bytes. -/
def sizeof_ip_hdr_t : BitVec 16 := 20
def sizeof_udp_hdr_t : BitVec 16 := 8
def sizeof_slmp_hdr_t : BitVec 16 := 10

/-- `prepare_hdrs_ack`: source and destination change places, the lengths are those of an empty
message, and the checksum is computed anew. -/
def prepare_hdrs_ack (hdrs : slmp_pkt_hdr_t) (flags : BitVec 16) : slmp_pkt_hdr_t :=
  let ip_hdr := { hdrs.ip_hdr with
    dest_id := hdrs.ip_hdr.source_id
    source_id := hdrs.ip_hdr.dest_id
    length := htons (sizeof_ip_hdr_t + sizeof_udp_hdr_t + sizeof_slmp_hdr_t)
    checksum := 0 }
  { eth_hdr := { hdrs.eth_hdr with
      dest := hdrs.eth_hdr.src
      src := hdrs.eth_hdr.dest }
    ip_hdr := { ip_hdr with checksum := ip_checksum ip_hdr.bytes }
    udp_hdr :=
      { src_port := hdrs.udp_hdr.dst_port
        dst_port := hdrs.udp_hdr.src_port
        length := htons (sizeof_slmp_hdr_t + sizeof_udp_hdr_t)
        checksum := 0 }
    slmp_hdr := { hdrs.slmp_hdr with flags := htons flags } }

/-! ## What RFC 1071 asks for -/

/-- The 16-bit big-endian words, an odd last byte padded with zero. -/
def be_words : List (BitVec 8) → List ℕ
  | a :: b :: data => (256 * a.toNat + b.toNat) :: be_words data
  | [a] => [256 * a.toNat]
  | [] => []

/-- The ones'-complement sum of the words. -/
def ones_sum (data : List (BitVec 8)) : ℕ := OnesComplement.fold 0xffff (be_words data).sum

/-- The complement of the sum. -/
def internet_checksum (data : List (BitVec 8)) : ℕ := 0xffff - ones_sum data

/-- A 16-bit number in network order. -/
def network_order (n : ℕ) : List (BitVec 8) := [BitVec.ofNat 8 (n / 256), BitVec.ofNat 8 n]

/-! ## Byte order -/

/-- Eight bits below eight others. -/
theorem shift_or {a b : ℕ} (hb : b < 256) : a <<< 8 ||| b = 256 * a + b := by
  rw [← Nat.shiftLeft_add_eq_or_of_lt (i := 8) hb, Nat.shiftLeft_eq, Nat.mul_comm]

theorem toNat_load_16 (lo hi : BitVec 8) : (load_16 lo hi).toNat = 256 * hi.toNat + lo.toNat := by
  rw [load_16, BitVec.toNat_append, shift_or lo.isLt]

theorem toNat_bswap_16 (v : BitVec 16) :
    (bswap_16 v).toNat = 256 * (v.toNat % 256) + v.toNat / 256 := by
  have hv := v.isLt
  have hlow : (v &&& 0xff).toNat = v.toNat % 256 := by
    rw [BitVec.toNat_and]
    exact Nat.and_two_pow_sub_one_eq_mod v.toNat 8
  rw [bswap_16, BitVec.toNat_or, BitVec.toNat_shiftLeft, hlow, BitVec.toNat_ushiftRight,
    Nat.shiftRight_eq_div_pow, Nat.mod_eq_of_lt, shift_or]
  · omega
  · rw [Nat.shiftLeft_eq]
    omega

/-- The bytes of a word that was swapped are in network order. -/
theorem store_16_htons (v : BitVec 16) : store_16 (htons v) = network_order v.toNat := by
  have hv := v.isLt
  have hswap := toNat_bswap_16 v
  unfold store_16 network_order htons
  congr 1
  · apply BitVec.eq_of_toNat_eq
    rw [BitVec.toNat_setWidth, hswap, BitVec.toNat_ofNat]
    omega
  · congr 1
    apply BitVec.eq_of_toNat_eq
    have hdiv : (256 * (v.toNat % 256) + v.toNat / 256) / 256 = v.toNat % 256 := by
      rw [Nat.mul_add_div (by decide), Nat.div_eq_of_lt (by omega), Nat.add_zero]
    rw [BitVec.toNat_setWidth, BitVec.toNat_ushiftRight, hswap, Nat.shiftRight_eq_div_pow,
      BitVec.toNat_ofNat]
    exact (congrArg (· % 256) hdiv).trans (Nat.mod_mod _ _)

/-! ## The accumulator -/

/-- The words that are read are the big-endian words. -/
theorem words_ntohs (data : List (BitVec 8)) :
    (words data).map (fun word => (ntohs word).toNat) = be_words data := by
  have hswap : ∀ lo hi : BitVec 8,
      (ntohs (load_16 lo hi)).toNat = 256 * lo.toNat + hi.toNat := by
    intro lo hi
    have hlo := lo.isLt
    rw [ntohs, toNat_bswap_16, toNat_load_16]
    omega
  induction data using words.induct with
  | case1 a b data ih => rw [words, be_words, List.map_cons, hswap, ih]
  | case2 a =>
      rw [words, be_words, List.map_singleton, hswap]
      rfl
  | case3 => rfl

/-- The accumulator is between 1 and all ones, and a step adds with the carry. -/
theorem accumulate_spec {acc : BitVec 32} (hpos : 0 < acc.toNat) (hle : acc.toNat ≤ 0xffff)
    (word : BitVec 16) :
    (accumulate acc word).toNat = OnesComplement.add 0xffff acc.toNat (ntohs word).toNat
      ∧ 0 < (accumulate acc word).toNat ∧ (accumulate acc word).toNat ≤ 0xffff := by
  have hword := (ntohs word).isLt
  have hsum : (acc + (ntohs word).setWidth 32).toNat = acc.toNat + (ntohs word).toNat := by
    rw [BitVec.toNat_add, BitVec.toNat_setWidth]
    omega
  have hgt : acc + (ntohs word).setWidth 32 > 0xffff
      ↔ 0xffff < acc.toNat + (ntohs word).toNat := by
    rw [gt_iff_lt, BitVec.lt_def, hsum]
    rfl
  unfold accumulate OnesComplement.add
  simp only
  by_cases hcarry : acc + (ntohs word).setWidth 32 > 0xffff
  · have hcarry' := hgt.mp hcarry
    have hsub : (acc + (ntohs word).setWidth 32 - 0xffff).toNat
        = acc.toNat + (ntohs word).toNat - 0xffff := by
      rw [BitVec.toNat_sub_of_le (BitVec.le_of_lt hcarry), hsum]
      rfl
    rw [if_pos hcarry, if_pos hcarry', hsub]
    omega
  · have hcarry' := mt hgt.mpr hcarry
    rw [if_neg hcarry, if_neg hcarry', hsum]
    omega

/-- **The accumulator** over any words that are read. -/
theorem foldl_accumulate (ws : List (BitVec 16)) {acc : BitVec 32} (hpos : 0 < acc.toNat)
    (hle : acc.toNat ≤ 0xffff) :
    (ws.foldl accumulate acc).toNat
        = (ws.map fun word => (ntohs word).toNat).foldl (OnesComplement.add 0xffff) acc.toNat
      ∧ 0 < (ws.foldl accumulate acc).toNat ∧ (ws.foldl accumulate acc).toNat ≤ 0xffff := by
  induction ws generalizing acc with
  | nil => exact ⟨rfl, hpos, hle⟩
  | cons word ws ih =>
      obtain ⟨hadd, hpos', hle'⟩ := accumulate_spec hpos hle word
      obtain ⟨hsum, hrest⟩ := ih hpos' hle'
      rw [List.foldl_cons, List.map_cons, List.foldl_cons, hsum, hadd]
      exact ⟨rfl, by rw [← hadd, ← hsum]; exact hrest⟩

theorem be_words_le (data : List (BitVec 8)) : ∀ w ∈ be_words data, w ≤ 0xffff := by
  rw [← words_ntohs]
  intro w hw
  obtain ⟨word, -, rfl⟩ := List.mem_map.mp hw
  exact Nat.le_of_lt_succ (ntohs word).isLt

/-- The accumulator in the end: all ones and the sum, folded. -/
theorem toNat_acc (data : List (BitVec 8)) : ((words data).foldl accumulate 0xffff).toNat
    = OnesComplement.fold 0xffff (0xffff + (be_words data).sum) := by
  have hpos : 0 < (0xffff : BitVec 32).toNat := by decide
  obtain ⟨hsum, -, -⟩ := foldl_accumulate (words data) hpos (by decide)
  have hstart : (0xffff : BitVec 32).toNat = OnesComplement.fold 0xffff 0xffff :=
    (OnesComplement.fold_of_le (le_refl _)).symm
  rw [hsum, words_ntohs, hstart, OnesComplement.foldl_add (by decide) (be_words_le data)]

/-- The sum of the words is positive unless all bytes are 0. -/
theorem sum_pos_iff (data : List (BitVec 8)) : 0 < (be_words data).sum ↔ ∃ b ∈ data, b ≠ 0 := by
  have hzero : ∀ b : BitVec 8, b ≠ 0 ↔ 0 < b.toNat := by
    intro b
    rw [Ne, ← BitVec.toNat_inj, Nat.pos_iff_ne_zero]
    rfl
  induction data using words.induct with
  | case1 a b data ih =>
      have ih : 0 < (be_words data).sum ↔ ∃ b ∈ data, b ≠ 0 := ih
      rw [be_words, List.sum_cons, List.exists_mem_cons_iff, List.exists_mem_cons_iff, ← ih, hzero,
        hzero]
      omega
  | case2 a =>
      rw [be_words, List.sum_singleton, List.exists_mem_cons_iff, hzero]
      simp
  | case3 => simp [be_words]

/-- The checksum is the complement of all ones and the sum. -/
theorem ip_checksum_eq (data : List (BitVec 8)) : ∃ v : BitVec 16, ip_checksum data = htons v
    ∧ v.toNat = 0xffff - OnesComplement.fold 0xffff (0xffff + (be_words data).sum) := by
  refine ⟨_, rfl, ?_⟩
  have hle := OnesComplement.fold_le (m := 0xffff) (by decide) (0xffff + (be_words data).sum)
  rw [BitVec.toNat_setWidth, BitVec.toNat_not, toNat_acc]
  omega

/-- **The stored checksum** of bytes that are not all zero. -/
theorem store_ip_checksum {data : List (BitVec 8)} (h : ∃ b ∈ data, b ≠ 0) :
    store_16 (ip_checksum data) = network_order (internet_checksum data) := by
  obtain ⟨v, hv, hvalue⟩ := ip_checksum_eq data
  rw [OnesComplement.fold_ones_add (by decide) ((sum_pos_iff data).mpr h)] at hvalue
  rw [hv, store_16_htons, hvalue]
  rfl

/-! ## The check -/

/-- The checksum field is one of the words of a header. -/
theorem sum_ip_hdr (h : ip_hdr_t) (checksum : BitVec 16) :
    (be_words { h with checksum := checksum }.bytes).sum
      = (be_words { h with checksum := 0 }.bytes).sum + (ntohs checksum).toNat := by
  have hlow : (checksum.setWidth 8).toNat = checksum.toNat % 256 := BitVec.toNat_setWidth ..
  have hhigh : ((checksum >>> 8).setWidth 8).toNat = checksum.toNat / 256 := by
    have hlt := checksum.isLt
    rw [BitVec.toNat_setWidth, BitVec.toNat_ushiftRight, Nat.shiftRight_eq_div_pow]
    omega
  simp only [ip_hdr_t.bytes, store_16, store_32, List.cons_append, List.nil_append, be_words,
    List.sum_cons, List.sum_nil, hlow, hhigh, ntohs, toNat_bswap_16]
  simp
  omega

theorem toNat_ntohs_htons (v : BitVec 16) : (ntohs (htons v)).toNat = v.toNat := by
  have hv := v.isLt
  rw [ntohs, htons, toNat_bswap_16, toNat_bswap_16]
  have hdiv : (256 * (v.toNat % 256) + v.toNat / 256) / 256 = v.toNat % 256 := by
    rw [Nat.mul_add_div (by decide), Nat.div_eq_of_lt (by omega), Nat.add_zero]
  omega

/-- **A header with its checksum** sums to all ones, unless all of its bytes are zero. -/
theorem header_check {h : ip_hdr_t} (hzero : h.checksum = 0) :
    ones_sum { h with checksum := ip_checksum h.bytes }.bytes = 0xffff ↔ ∃ b ∈ h.bytes, b ≠ 0 := by
  have hself : { h with checksum := 0 } = h := by
    cases h
    obtain rfl := hzero
    rfl
  obtain ⟨v, hv, hvalue⟩ := ip_checksum_eq h.bytes
  rw [ones_sum, sum_ip_hdr, hself, hv, toNat_ntohs_htons, hvalue, ← sum_pos_iff]
  constructor
  · intro hones
    by_contra hsum
    rw [Nat.eq_zero_of_not_pos hsum, Nat.add_zero, OnesComplement.fold_of_le (le_refl _),
      OnesComplement.fold_of_le (by decide)] at hones
    exact absurd hones (by decide)
  · intro hsum
    rw [OnesComplement.fold_ones_add (by decide) hsum,
      OnesComplement.fold_add_complement (by decide) hsum]

/-- The header of an acknowledgment has a length, so its check never fails. -/
theorem prepare_hdrs_ack_check (hdrs : slmp_pkt_hdr_t) (flags : BitVec 16) :
    ones_sum (prepare_hdrs_ack hdrs flags).ip_hdr.bytes = 0xffff := by
  obtain ⟨h, hzero, hlength, hhdr⟩ : ∃ h : ip_hdr_t, h.checksum = 0
      ∧ h.length = htons (sizeof_ip_hdr_t + sizeof_udp_hdr_t + sizeof_slmp_hdr_t)
      ∧ (prepare_hdrs_ack hdrs flags).ip_hdr = { h with checksum := ip_checksum h.bytes } :=
    ⟨_, rfl, rfl, rfl⟩
  obtain ⟨b, hb, hne⟩ : ∃ b ∈ store_16 h.length, b ≠ 0 := by
    rw [hlength]
    decide
  rw [hhdr, header_check hzero]
  refine ⟨b, ?_, hne⟩
  simp only [ip_hdr_t.bytes, List.mem_append]
  tauto

/-- **`ip_checksum` is the Internet checksum**, in network order in memory. Its accumulator
stays a non-zero word, and a header that holds its checksum sums to all ones. -/
theorem ip_checksum_internet :
    (∀ data : List (BitVec 8), (∃ b ∈ data, b ≠ 0) →
      store_16 (ip_checksum data) = network_order (internet_checksum data))
    ∧ (∀ (data : List (BitVec 8)) (n : ℕ),
      1 ≤ (acc_after data n).toNat ∧ (acc_after data n).toNat ≤ 0xffff)
    ∧ (∀ h : ip_hdr_t, h.checksum = 0 →
      (ones_sum { h with checksum := ip_checksum h.bytes }.bytes = 0xffff
        ↔ ∃ b ∈ h.bytes, b ≠ 0))
    ∧ ∀ (hdrs : slmp_pkt_hdr_t) (flags : BitVec 16),
      ones_sum (prepare_hdrs_ack hdrs flags).ip_hdr.bytes = 0xffff :=
  ⟨fun _ h => store_ip_checksum h,
    fun data n => (foldl_accumulate ((words data).take n) (by decide) (by decide)).2,
    fun _ hzero => header_check hzero, prepare_hdrs_ack_check⟩

/-- Three bytes; the last one is padded. -/
theorem ip_checksum_internet_demo :
    store_16 (ip_checksum [0x45, 0, 0x26]) = network_order (internet_checksum [0x45, 0, 0x26]) :=
  ip_checksum_internet.1 _ ⟨0x45, by decide, by decide⟩

example : store_16 (ip_checksum [0x45, 0, 0x26]) = [0x94, 0xff] := by decide

end Pspin.IpChecksum
