import CxxPandora.Lib.Words

/-!
# Parsing a netlink datagram

The two nested loops of `receive_and_parse_response` in `demos/linux/netlink/netlink_example.c`,
over the messages of a datagram and over the attributes of a message. Both go by lengths that stand
in the datagram. The loops check a message and an attribute before they go on, but not that a
message has room for its `ifinfomsg`, nor that a name ends; `readsInside_iff` says that these are
the only two ways to read out of the message.
-/

namespace CxxPandora.Netlink

open Lib

/-! ## The formats -/

/-- The memory from the start of `buffer` on. -/
abbrev Memory := ℕ → UInt8

/-- A `__u16`. -/
def u16 (mem : Memory) (i : ℕ) : ℕ := (mem i).toNat + 2^8 * (mem (i + 1)).toNat

/-- A `__u32`. -/
def u32 (mem : Memory) (i : ℕ) : ℕ := u16 mem i + 2^16 * u16 mem (i + 2)

/-- `NLMSG_ALIGN` and `RTA_ALIGN` of an unsigned value. -/
def align (n : ℕ) : ℕ := (n + 3) % 2^32 / 4 * 4

/-- `sizeof(struct nlmsghdr)`. -/
def nlmsghdrSize : ℕ := 16

/-- `sizeof(struct ifinfomsg)`. -/
def ifinfomsgSize : ℕ := 16

/-- `sizeof(struct rtattr)`. -/
def rtattrSize : ℕ := 4

/-- The fields and the data that are read. -/
inductive Field
  | nlmsg_len
  | nlmsg_type
  | ifi_index
  | rta_len
  | rta_type
  /-- The name, as a string. -/
  | name
  /-- The six bytes of the address. -/
  | mac
  deriving DecidableEq, Repr

/-- A read of the data at `offset`, of the message from `first` up to `stop`. -/
structure Read where
  field : Field
  offset : ℕ
  first : ℕ
  stop : ℕ
  deriving DecidableEq, Repr

/-- The read touches byte `i`. A string is read up to its NUL. -/
def Read.Touches (mem : Memory) (r : Read) (i : ℕ) : Prop :=
  r.offset ≤ i ∧
    match r.field with
    | .nlmsg_len | .ifi_index => i < r.offset + 4
    | .nlmsg_type | .rta_len | .rta_type => i < r.offset + 2
    | .mac => i < r.offset + 6
    | .name => ∀ j, r.offset ≤ j → j < i → mem j ≠ 0

/-! ## The loops -/

/-- `RTM_NEWLINK`. -/
def rtmNewlink : ℕ := 16

/-- `NLMSG_ERROR`. -/
def nlmsgError : ℕ := 2

/-- `NLMSG_DONE`. -/
def nlmsgDone : ℕ := 3

/-- `IFLA_ADDRESS`. -/
def iflaAddress : ℕ := 1

/-- `IFLA_IFNAME`. -/
def iflaIfname : ℕ := 3

/-- A 16-bit value. -/
theorem u16_lt (mem : Memory) (i : ℕ) : u16 mem i < 2^16 := by
  have h := (mem i).toNat_lt
  have h' := (mem (i + 1)).toNat_lt
  unfold u16
  omega

/-- A value that is at most a length has at most three bytes more than the length when aligned. -/
theorem align_bounds {n : ℕ} {len : ℤ} (hle : (n : ℤ) ≤ len) (hmax : len ≤ intMax) :
    n ≤ align n ∧ (align n : ℤ) ≤ len + 3 := by
  unfold intMax at hmax
  unfold align
  omega

/-- `len -= size` of an `int` and an unsigned value that is at most three bytes more. -/
theorem toInt_sub {len : ℤ} {size : ℕ} (hle : (size : ℤ) ≤ len + 3) (hmax : len ≤ intMax) :
    toInt (len - size) = len - size := by
  unfold intMax at hmax
  exact toInt_eq (by unfold intMin; omega) (by unfold intMax; omega)

/-- The length gets smaller in every pass. -/
theorem toInt_sub_lt {n : ℕ} {len : ℤ} (hpos : 0 < n) (hle : (n : ℤ) ≤ len) :
    (toInt (len - align n)).toNat < len.toNat := by
  by_cases hmax : len ≤ intMax
  · obtain ⟨hn, hbound⟩ := align_bounds hle hmax
    rw [toInt_sub hbound hmax]
    omega
  · unfold intMax at hmax
    unfold toInt
    rw [Int.bmod_def]
    split_ifs <;> omega

/-- What is read of an attribute after `RTA_OK`. -/
def attributeBody (mem : Memory) (first stop tb : ℕ) : List Read :=
  ⟨.rta_type, tb + 2, first, stop⟩ ::
    if u16 mem (tb + 2) = iflaIfname then [⟨.name, tb + rtattrSize, first, stop⟩]
    else if u16 mem (tb + 2) = iflaAddress then
      ⟨.rta_len, tb, first, stop⟩ ::
        if 6 ≤ sizeSub (u16 mem tb) rtattrSize then [⟨.mac, tb + rtattrSize, first, stop⟩] else []
    else []

/-- The loop over the attributes of a message. -/
def attributeReads (mem : Memory) (first stop tb : ℕ) (len : ℤ) : List Read :=
  if rtattrSize ≤ len then
    ⟨.rta_len, tb, first, stop⟩ ::
      if _h : rtattrSize ≤ u16 mem tb ∧ (u16 mem tb : ℤ) ≤ len then
        attributeBody mem first stop tb ++
          attributeReads mem first stop (tb + align (u16 mem tb))
            (toInt (len - align (u16 mem tb)))
      else []
  else []
termination_by len.toNat
decreasing_by exact toInt_sub_lt (Nat.lt_of_lt_of_le (by decide) _h.1) _h.2

/-- What is read of an `RTM_NEWLINK` message. -/
def linkReads (mem : Memory) (nh : ℕ) : List Read :=
  let nlmsg_len := u32 mem nh
  let stop := nh + nlmsg_len
  [⟨.nlmsg_len, nh, nh, stop⟩, ⟨.ifi_index, nh + nlmsghdrSize + 4, nh, stop⟩] ++
    attributeReads mem nh stop (nh + nlmsghdrSize + align ifinfomsgSize)
      (toInt (sizeSub nlmsg_len (nlmsghdrSize + ifinfomsgSize)))

/-- The loop over the messages of a datagram. -/
def messageReads (mem : Memory) (nh : ℕ) (len : ℤ) : List Read :=
  if nlmsghdrSize ≤ len then
    -- The length is read before it is known to be right: it belongs to the header.
    ⟨.nlmsg_len, nh, nh, nh + nlmsghdrSize⟩ ::
      if _h : nlmsghdrSize ≤ u32 mem nh ∧ (u32 mem nh : ℤ) ≤ len then
        ⟨.nlmsg_type, nh + 4, nh, nh + u32 mem nh⟩ ::
          if u16 mem (nh + 4) = nlmsgDone ∨ u16 mem (nh + 4) = nlmsgError then []
          else
            (if u16 mem (nh + 4) = rtmNewlink then linkReads mem nh else []) ++
              messageReads mem (nh + align (u32 mem nh)) (toInt (len - align (u32 mem nh)))
      else []
  else []
termination_by len.toNat
decreasing_by exact toInt_sub_lt (Nat.lt_of_lt_of_le (by decide) _h.1) _h.2

/-- What `receive_and_parse_response` reads of a datagram. -/
def reads (mem : Memory) (received_bytes : ℕ) : List Read := messageReads mem 0 received_bytes

/-! ## Reads inside their message -/

/-- A read stays in the datagram and in its message. -/
def Read.Inside (mem : Memory) (received_bytes : ℕ) (r : Read) : Prop :=
  ∀ i, r.Touches mem i → i < received_bytes ∧ r.first ≤ i ∧ i < r.stop

/-- All reads do. -/
def ReadsInside (mem : Memory) (received_bytes : ℕ) : Prop :=
  ∀ r ∈ reads mem received_bytes, r.Inside mem received_bytes

/-- The attributes that the loop comes to. -/
def attributes (mem : Memory) (tb : ℕ) (len : ℤ) : List ℕ :=
  if _h : rtattrSize ≤ u16 mem tb ∧ (u16 mem tb : ℤ) ≤ len then
    tb :: attributes mem (tb + align (u16 mem tb)) (toInt (len - align (u16 mem tb)))
  else []
termination_by len.toNat
decreasing_by exact toInt_sub_lt (Nat.lt_of_lt_of_le (by decide) _h.1) _h.2

/-- The `RTM_NEWLINK` messages that the loop comes to. -/
def links (mem : Memory) (nh : ℕ) (len : ℤ) : List ℕ :=
  if _h : nlmsghdrSize ≤ u32 mem nh ∧ (u32 mem nh : ℤ) ≤ len then
    if u16 mem (nh + 4) = nlmsgDone ∨ u16 mem (nh + 4) = nlmsgError then []
    else
      (if u16 mem (nh + 4) = rtmNewlink then [nh] else []) ++
        links mem (nh + align (u32 mem nh)) (toInt (len - align (u32 mem nh)))
  else []
termination_by len.toNat
decreasing_by exact toInt_sub_lt (Nat.lt_of_lt_of_le (by decide) _h.1) _h.2

/-- A string ends before a byte. -/
def Ends (mem : Memory) (offset stop : ℕ) : Prop := ∃ i, offset ≤ i ∧ i < stop ∧ mem i = 0

section Inside

variable {mem : Memory} {received_bytes first stop tb nh offset : ℕ} {len : ℤ}

/-- A field inside the message is read inside it. -/
theorem inside_field {field : Field} (size : ℕ)
    (htouch : ∀ i, (Read.mk field offset first stop).Touches mem i →
      offset ≤ i ∧ i < offset + size)
    (hfirst : first ≤ offset) (hstop : offset + size ≤ stop) (hreceived : stop ≤ received_bytes) :
    (Read.mk field offset first stop).Inside mem received_bytes := by
  intro i hi
  obtain ⟨hle, hlt⟩ := htouch i hi
  show i < received_bytes ∧ first ≤ i ∧ i < stop
  omega

/-- A name is read inside the message exactly when it ends there. -/
theorem inside_name_iff (hfirst : first ≤ offset) (hstop : offset ≤ stop)
    (hreceived : stop ≤ received_bytes) :
    (Read.mk .name offset first stop).Inside mem received_bytes ↔ Ends mem offset stop := by
  constructor
  · intro h
    by_contra hends
    -- Then the byte behind the message is read.
    have htouch : (Read.mk .name offset first stop).Touches mem stop :=
      ⟨hstop, fun j hle hlt hzero => hends ⟨j, hle, hlt, hzero⟩⟩
    exact absurd (h stop htouch).2.2 (Nat.lt_irrefl stop)
  · rintro ⟨j, hle, hlt, hzero⟩ i ⟨hi, hnone⟩
    dsimp only at hi
    have hij : i ≤ j := Nat.le_of_not_lt fun hji => hnone j hle hji hzero
    show i < received_bytes ∧ first ≤ i ∧ i < stop
    omega

/-- Of an attribute that has passed `RTA_OK`, only a name can be read out of the message. -/
theorem attributeBody_inside_iff (hfirst : first ≤ tb) (hlen : rtattrSize ≤ u16 mem tb)
    (hstop : tb + u16 mem tb ≤ stop) (hreceived : stop ≤ received_bytes) :
    (∀ r ∈ attributeBody mem first stop tb, r.Inside mem received_bytes) ↔
      (u16 mem (tb + 2) = iflaIfname → Ends mem (tb + rtattrSize) stop) := by
  unfold rtattrSize at hlen ⊢
  have htype : (Read.mk .rta_type (tb + 2) first stop).Inside mem received_bytes :=
    inside_field 2 (fun i hi => hi) (by omega) (by omega) hreceived
  unfold attributeBody
  by_cases hname : u16 mem (tb + 2) = iflaIfname
  · rw [if_pos hname, List.forall_mem_cons, and_iff_right htype, List.forall_mem_singleton,
      forall_prop_of_true hname]
    exact inside_name_iff (by unfold rtattrSize; omega) (by unfold rtattrSize; omega) hreceived
  · rw [if_neg hname, List.forall_mem_cons, and_iff_right htype, forall_prop_of_false hname,
      iff_true]
    intro r hr
    split_ifs at hr with haddress hsix
    · rcases List.mem_cons.mp hr with rfl | hr
      · exact inside_field 2 (fun i hi => hi) hfirst (by omega) hreceived
      · obtain rfl := List.mem_singleton.mp hr
        have hu16 := u16_lt mem tb
        unfold rtattrSize at hsix ⊢
        rw [sizeSub_eq hlen (by omega)] at hsix
        exact inside_field 6 (fun i hi => hi) (by omega) (by omega) hreceived
    · obtain rfl := List.mem_singleton.mp hr
      exact inside_field 2 (fun i hi => hi) hfirst (by omega) hreceived
    · exact absurd hr List.not_mem_nil

/-- The loop over the attributes reads inside the message exactly when every name that it comes to
ends there. -/
theorem attributeReads_inside_iff (hfirst : first ≤ tb) (hsum : (tb : ℤ) + len = stop)
    (hmax : len ≤ intMax) (hreceived : stop ≤ received_bytes) :
    (∀ r ∈ attributeReads mem first stop tb len, r.Inside mem received_bytes) ↔
      ∀ a ∈ attributes mem tb len, u16 mem (a + 2) = iflaIfname →
        Ends mem (a + rtattrSize) stop := by
  induction hn : len.toNat using Nat.strongRecOn generalizing tb len with
  | ind n ih =>
    rw [attributeReads, attributes]
    by_cases hlen : (rtattrSize : ℤ) ≤ len
    · have hheader : (Read.mk .rta_len tb first stop).Inside mem received_bytes := by
        unfold rtattrSize at hlen
        exact inside_field 2 (fun i hi => hi) hfirst (by omega) hreceived
      rw [if_pos hlen, List.forall_mem_cons, and_iff_right hheader]
      by_cases hok : rtattrSize ≤ u16 mem tb ∧ (u16 mem tb : ℤ) ≤ len
      · obtain ⟨hn', hbound⟩ := align_bounds hok.2 hmax
        have hsub := toInt_sub hbound hmax
        have hlt : (toInt (len - align (u16 mem tb))).toNat < n :=
          hn ▸ toInt_sub_lt (Nat.lt_of_lt_of_le (by decide) hok.1) hok.2
        rw [dif_pos hok, dif_pos hok, List.forall_mem_append, List.forall_mem_cons,
          attributeBody_inside_iff hfirst hok.1 (by omega) hreceived,
          ih _ hlt (by omega) (by rw [hsub]; push_cast; omega) (by rw [hsub]; omega) rfl]
      · rw [dif_neg hok, dif_neg hok]
        simp
    · have hok : ¬ (rtattrSize ≤ u16 mem tb ∧ (u16 mem tb : ℤ) ≤ len) := fun hok =>
        hlen (Int.le_trans (Int.ofNat_le.mpr hok.1) hok.2)
      rw [if_neg hlen, dif_neg hok]
      simp

/-- A message that has passed `NLMSG_OK` is read inside exactly when it has room for `ifi_index` and
every name that the loop over its attributes comes to ends in it. -/
theorem linkReads_inside_iff (hlen : nlmsghdrSize ≤ u32 mem nh)
    (hstop : nh + u32 mem nh ≤ received_bytes) (hmax : (u32 mem nh : ℤ) ≤ intMax) :
    (∀ r ∈ linkReads mem nh, r.Inside mem received_bytes) ↔
      24 ≤ u32 mem nh ∧
        ∀ a ∈ attributes mem (nh + 32) (u32 mem nh - 32), u16 mem (a + 2) = iflaIfname →
          Ends mem (a + rtattrSize) (nh + u32 mem nh) := by
  unfold nlmsghdrSize at hlen
  have hheader : (Read.mk .nlmsg_len nh nh (nh + u32 mem nh)).Inside mem received_bytes :=
    inside_field 4 (fun i hi => hi) (Nat.le_refl _) (by omega) hstop
  have hindex : (Read.mk .ifi_index (nh + 20) nh (nh + u32 mem nh)).Inside mem received_bytes ↔
      24 ≤ u32 mem nh := by
    constructor
    · intro h
      have htouch : (Read.mk .ifi_index (nh + 20) nh (nh + u32 mem nh)).Touches mem (nh + 23) :=
        ⟨by dsimp only; omega, by dsimp only; omega⟩
      obtain ⟨-, -, hlt⟩ := h _ htouch
      dsimp only at hlt
      omega
    · intro h
      exact inside_field 4 (fun i hi => hi) (by omega) (by omega) hstop
  have hsub : toInt (sizeSub (u32 mem nh) (nlmsghdrSize + ifinfomsgSize)) = u32 mem nh - 32 := by
    unfold intMax at hmax
    unfold sizeSub nlmsghdrSize ifinfomsgSize toInt
    rw [Int.bmod_def]
    split_ifs <;> omega
  have hdata : nh + nlmsghdrSize + align ifinfomsgSize = nh + 32 := rfl
  have hstart : nh + nlmsghdrSize + 4 = nh + 20 := rfl
  unfold linkReads
  dsimp only
  rw [hsub, hdata, hstart, List.forall_mem_append, List.forall_mem_cons, List.forall_mem_singleton,
    and_iff_right hheader, hindex, attributeReads_inside_iff (Nat.le_add_right _ _)
      (by push_cast; omega) (by omega) hstop]

/-- The loop over the messages reads inside them exactly when every `RTM_NEWLINK` message that it
comes to is read inside. -/
theorem messageReads_inside_iff (hsum : (nh : ℤ) + len = received_bytes) (hmax : len ≤ intMax) :
    (∀ r ∈ messageReads mem nh len, r.Inside mem received_bytes) ↔
      ∀ m ∈ links mem nh len, ∀ r ∈ linkReads mem m, r.Inside mem received_bytes := by
  induction hn : len.toNat using Nat.strongRecOn generalizing nh len with
  | ind n ih =>
    rw [messageReads, links]
    by_cases hlen : (nlmsghdrSize : ℤ) ≤ len
    · have hlen' : (16 : ℤ) ≤ len := hlen
      have hheader : (Read.mk .nlmsg_len nh nh (nh + nlmsghdrSize)).Inside mem received_bytes :=
        inside_field 4 (fun i hi => hi) (Nat.le_refl _)
          (by unfold nlmsghdrSize; omega) (by unfold nlmsghdrSize; omega)
      rw [if_pos hlen, List.forall_mem_cons, and_iff_right hheader]
      by_cases hok : nlmsghdrSize ≤ u32 mem nh ∧ (u32 mem nh : ℤ) ≤ len
      · have hok' : 16 ≤ u32 mem nh := hok.1
        obtain ⟨hn', hbound⟩ := align_bounds hok.2 hmax
        have hsub := toInt_sub hbound hmax
        have hlt : (toInt (len - align (u32 mem nh))).toNat < n :=
          hn ▸ toInt_sub_lt (Nat.lt_of_lt_of_le (by decide) hok.1) hok.2
        have htype : (Read.mk .nlmsg_type (nh + 4) nh (nh + u32 mem nh)).Inside mem
            received_bytes :=
          inside_field 2 (fun i hi => hi) (by omega) (by omega) (by omega)
        rw [dif_pos hok, dif_pos hok, List.forall_mem_cons, and_iff_right htype]
        by_cases hend : u16 mem (nh + 4) = nlmsgDone ∨ u16 mem (nh + 4) = nlmsgError
        · rw [if_pos hend, if_pos hend]
          simp
        · rw [if_neg hend, if_neg hend, List.forall_mem_append, List.forall_mem_append,
            ih _ hlt (by rw [hsub]; push_cast; omega) (by rw [hsub]; omega) rfl]
          refine and_congr_left' ?_
          by_cases hlink : u16 mem (nh + 4) = rtmNewlink
          · rw [if_pos hlink, if_pos hlink, List.forall_mem_singleton]
          · rw [if_neg hlink, if_neg hlink]
            simp
      · rw [dif_neg hok, dif_neg hok]
        simp
    · have hok : ¬ (nlmsghdrSize ≤ u32 mem nh ∧ (u32 mem nh : ℤ) ≤ len) := fun hok =>
        hlen (Int.le_trans (Int.ofNat_le.mpr hok.1) hok.2)
      rw [if_neg hlen, dif_neg hok]
      simp

/-- What the loop over the messages comes to has passed `NLMSG_OK`. -/
theorem bounds_of_mem_links (hsum : (nh : ℤ) + len = received_bytes) (hmax : len ≤ intMax) {m : ℕ}
    (hm : m ∈ links mem nh len) :
    nlmsghdrSize ≤ u32 mem m ∧ m + u32 mem m ≤ received_bytes ∧ (u32 mem m : ℤ) ≤ intMax := by
  induction hn : len.toNat using Nat.strongRecOn generalizing nh len with
  | ind n ih =>
    rw [links] at hm
    by_cases hok : nlmsghdrSize ≤ u32 mem nh ∧ (u32 mem nh : ℤ) ≤ len
    · obtain ⟨-, hbound⟩ := align_bounds hok.2 hmax
      have hsub := toInt_sub hbound hmax
      have hlt : (toInt (len - align (u32 mem nh))).toNat < n :=
        hn ▸ toInt_sub_lt (Nat.lt_of_lt_of_le (by decide) hok.1) hok.2
      rw [dif_pos hok] at hm
      by_cases hend : u16 mem (nh + 4) = nlmsgDone ∨ u16 mem (nh + 4) = nlmsgError
      · rw [if_pos hend] at hm
        exact absurd hm List.not_mem_nil
      · rw [if_neg hend] at hm
        rcases List.mem_append.mp hm with hm | hm
        · split_ifs at hm with hlink
          · obtain rfl := List.mem_singleton.mp hm
            exact ⟨hok.1, by omega, by omega⟩
          · exact absurd hm List.not_mem_nil
        · exact ih _ hlt (by rw [hsub]; push_cast; omega) (by rw [hsub]; omega) hm rfl
    · rw [dif_neg hok] at hm
      exact absurd hm List.not_mem_nil

end Inside

/-! ## The datagrams that are read inside -/

/-- The loops over every datagram end, and they read inside the messages exactly when every
`RTM_NEWLINK` message that they come to has at least 24 bytes, which is as far as `ifi_index`, and
every interface name in it has its NUL before the end of the message. -/
theorem readsInside_iff (mem : Memory) {received_bytes : ℕ} (hmin : 1 ≤ received_bytes)
    (hmax : received_bytes ≤ 8192) :
    ReadsInside mem received_bytes ↔
      ∀ m ∈ links mem 0 received_bytes, 24 ≤ u32 mem m ∧
        ∀ a ∈ attributes mem (m + 32) (u32 mem m - 32), u16 mem (a + 2) = iflaIfname →
          Ends mem (a + rtattrSize) (m + u32 mem m) := by
  have hint : (received_bytes : ℤ) ≤ intMax := by
    unfold intMax
    omega
  have hsum : ((0 : ℕ) : ℤ) + received_bytes = received_bytes := Int.zero_add _
  rw [ReadsInside, reads, messageReads_inside_iff hsum hint]
  refine forall₂_congr fun m hm => ?_
  obtain ⟨hlen, hstop, hle⟩ := bounds_of_mem_links hsum hint hm
  exact linkReads_inside_iff hlen hstop hle

/-- A datagram that starts with the length and the type of an `RTM_NEWLINK` message. -/
def newlink (nlmsg_len : UInt8) : Memory :=
  fun i => if i = 0 then nlmsg_len else if i = 4 then 16 else 0

/-- The loop over the messages comes to the one message. -/
theorem links_newlink {n : ℕ} (h : n = 16 ∨ n = 24) : links (newlink n.toUInt8) 0 n = [0] := by
  rcases h with rfl | rfl
  · rw [links, dif_pos (by decide), if_neg (by decide), if_pos (by decide), links,
      dif_neg (by decide)]
    rfl
  · rw [links, dif_pos (by decide), if_neg (by decide), if_pos (by decide), links,
      dif_neg (by decide)]
    rfl

/-- A message of 24 bytes is read inside. -/
theorem readsInside_newlink : ReadsInside (newlink 24) 24 := by
  refine (readsInside_iff (newlink 24) (by decide) (by decide)).mpr fun m hm => ?_
  have hlinks : links (newlink 24) 0 24 = [0] := links_newlink (Or.inr rfl)
  obtain rfl := List.mem_singleton.mp (hlinks ▸ hm)
  refine ⟨by decide, fun a ha => ?_⟩
  rw [attributes, dif_neg (by decide)] at ha
  exact absurd ha List.not_mem_nil

/-- Of one of 16 bytes, `ifi_index` is read behind the datagram. -/
theorem not_readsInside_newlink : ¬∀ (mem : Memory) (received_bytes : ℕ), 1 ≤ received_bytes →
    received_bytes ≤ 8192 → ReadsInside mem received_bytes := by
  intro h
  have hlinks : links (newlink 16) 0 (16 : ℕ) = [0] := links_newlink (Or.inl rfl)
  have hinside := (messageReads_inside_iff (by decide) (by decide)).mp
    (h (newlink 16) 16 (by decide) (by decide)) 0 (hlinks ▸ List.mem_singleton_self 0)
  exact absurd ((linkReads_inside_iff (by decide) (by decide) (by decide)).mp hinside).1
    (by decide)

end CxxPandora.Netlink
