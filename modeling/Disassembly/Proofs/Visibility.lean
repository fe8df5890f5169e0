import Disassembly.Proofs.Losslessness

/-!
# What a listing shows of its image

A listing does not show everything that it holds. A type byte without a meaning is only
marked as unknown, and so is a tag without a meaning, together with its data; an
operator byte shows only whether it is zero. `Instruction.blur` forgets what is not
shown.

On the side of the image every byte has a role (`Listing.roles`), and the role says
which other bytes would be shown alike. Two listings blur to the same exactly when their
images agree up to these bytes (`Listing.Fills.blur_eq_iff`).
-/

namespace Disassembly

/-! ### Values that are not shown -/

def DataType.blur : DataType → DataType
  | unknown _ => unknown 0
  | type => type

def OffsetSide.blur : OffsetSide → OffsetSide
  | unknown _ _ => unknown 0 0
  | side => side

def Operand.blur : Operand → Operand
  | offset expr => offset ⟨expr.lhs.blur, expr.operator, expr.rhs.blur⟩
  | dataType type => dataType type.blur
  | operand => operand

/-- The instruction with all values set to zero that its line does not show. -/
def Instruction.blur (i : Instruction) : Instruction :=
  { i with operands := i.operands.map Operand.blur }

/-! ### The roles of bytes -/

/-- What a byte of an image is, as far as its line is concerned. -/
inductive ByteRole where
  /-- Every value is shown differently. -/
  | exact
  /-- The operator of an offset expression. -/
  | operator
  /-- The type of a new variable. -/
  | dataType
  /-- The tag of one side of an offset expression. -/
  | tag
  /-- The data behind a tag without a meaning. -/
  | hidden
deriving DecidableEq, Repr

/-- In a place with this role, the two bytes are shown alike. -/
def ByteRole.Allows : ByteRole → UInt8 → UInt8 → Prop
  | exact, x, y => x = y
  | operator, x, y => x = 0 ↔ y = 0
  | dataType, x, y => x = y ∨ 3 < x ∧ 3 < y
  | tag, x, y => x = y ∨ 2 < x ∧ 2 < y
  | hidden, _, _ => True

theorem ByteRole.allows_iff {role : ByteRole} {x y : UInt8} :
    role.Allows x y ↔ x = y ∨ role = operator ∧ (x = 0 ↔ y = 0) ∨
      role = dataType ∧ 3 < x ∧ 3 < y ∨ role = tag ∧ 2 < x ∧ 2 < y ∨ role = hidden := by
  cases role with
  | operator =>
    have hsame : x = y → (x = 0 ↔ y = 0) := by
      rintro rfl
      rfl
    simpa [Allows] using hsame
  | exact | dataType | tag | hidden => simp [Allows]

def OffsetSide.roles : OffsetSide → List ByteRole
  | unknown _ _ => [.tag, .hidden, .hidden]
  | literal _ | var _ | address _ => [.tag, .exact, .exact]

/-- The roles of the bytes of an operand, in order. -/
def Operand.roles : Operand → List ByteRole
  | offset expr => expr.lhs.roles ++ .operator :: expr.rhs.roles
  | dataType _ => [.dataType]
  | operand => List.replicate operand.size .exact

def Instruction.roles (i : Instruction) : List ByteRole :=
  .exact :: .exact :: i.operands.flatMap Operand.roles

/-- The roles of the bytes of an image with this listing. -/
def Listing.roles (listing : Listing) : List ByteRole := listing.flatMap Instruction.roles

@[simp] theorem OffsetSide.length_roles (side : OffsetSide) : side.roles.length = 3 := by
  cases side <;> rfl

@[simp] theorem Operand.length_roles (operand : Operand) : operand.roles.length = operand.size := by
  cases operand with
  | offset expr => simp [roles, size, OffsetExpr.size]
  | literal | var | address | popped | location | deref | dataType => simp [roles, size]

@[simp] theorem Instruction.length_roles (i : Instruction) : i.roles.length = i.size := by
  obtain ⟨address, opcode, mnemonic, operands⟩ := i
  simp only [roles, size, opcodeSize, List.length_cons]
  induction operands with
  | nil => rfl
  | cons operand operands ih =>
    simp only [List.flatMap_cons, List.length_append, Operand.length_roles, List.map_cons,
      List.foldr_cons]
    omega

/-! ### Bytes that are shown alike -/

/-- The two strings have the same length, and in every place their bytes are shown
    alike. -/
def Alike (roles : List ByteRole) (a b : Image) : Prop :=
  a.length = b.length ∧ ∀ (k : Nat) (role : ByteRole) (x y : UInt8),
    roles[k]? = some role → a[k]? = some x → b[k]? = some y → role.Allows x y

@[simp] theorem alike_nil : Alike [] [] [] := by
  simp [Alike]

@[simp] theorem alike_cons {role : ByteRole} {roles : List ByteRole} {x y : UInt8} {a b : Image} :
    Alike (role :: roles) (x :: a) (y :: b) ↔ role.Allows x y ∧ Alike roles a b := by
  constructor
  · rintro ⟨hlength, hbytes⟩
    refine ⟨hbytes 0 role x y rfl rfl rfl, Nat.succ.inj hlength, ?_⟩
    intro k role x y hrole hx hy
    exact hbytes (k + 1) role x y hrole hx hy
  · rintro ⟨hfirst, hlength, hbytes⟩
    refine ⟨congrArg (· + 1) hlength, ?_⟩
    intro k role x y hrole hx hy
    cases k with
    | zero =>
      cases hrole
      cases hx
      cases hy
      exact hfirst
    | succ k => exact hbytes k role x y hrole hx hy

theorem alike_append {roles roles' : List ByteRole} {x x' y y' : Image}
    (hx : roles.length = x.length) (hy : roles.length = y.length) :
    Alike (roles ++ roles') (x ++ x') (y ++ y') ↔ Alike roles x y ∧ Alike roles' x' y' := by
  induction roles generalizing x y with
  | nil =>
    obtain rfl := List.eq_nil_of_length_eq_zero hx.symm
    obtain rfl := List.eq_nil_of_length_eq_zero hy.symm
    simp
  | cons role roles ih =>
    obtain ⟨a, as, rfl⟩ := List.exists_cons_of_length_eq_add_one hx.symm
    obtain ⟨b, bs, rfl⟩ := List.exists_cons_of_length_eq_add_one hy.symm
    simp only [List.cons_append, alike_cons, ih (Nat.succ.inj hx) (Nat.succ.inj hy), and_assoc]

theorem alike_iff {roles : List ByteRole} {a b : Image} (hroles : roles.length = a.length) :
    Alike roles a b ↔ a.length = b.length ∧
      ∀ (k : Nat) (x y : UInt8), a[k]? = some x → b[k]? = some y →
        x = y ∨
        roles[k]? = some .operator ∧ (x = 0 ↔ y = 0) ∨
        roles[k]? = some .dataType ∧ 3 < x ∧ 3 < y ∨
        roles[k]? = some .tag ∧ 2 < x ∧ 2 < y ∨
        roles[k]? = some .hidden := by
  apply and_congr_right
  intro _
  constructor
  · intro hbytes k x y hx hy
    obtain ⟨hk, -⟩ := List.getElem?_eq_some_iff.mp hx
    obtain ⟨role, hrole⟩ : ∃ role, roles[k]? = some role :=
      ⟨_, List.getElem?_eq_getElem (hroles ▸ hk)⟩
    have hallows := ByteRole.allows_iff.mp (hbytes k role x y hrole hx hy)
    simpa only [hrole, Option.some.injEq] using hallows
  · intro hbytes k role x y hrole hx hy
    have hallows := hbytes k x y hx hy
    simp only [hrole, Option.some.injEq] at hallows
    exact ByteRole.allows_iff.mpr hallows

/-! ### Operands -/

theorem SideParts.blur_eq_iff {tag low high tag' low' high' : UInt8} {side side' : OffsetSide}
    (h : SideParts tag (wordOfBytes low high) side)
    (h' : SideParts tag' (wordOfBytes low' high') side') :
    side.blur = side'.blur ↔ Alike side.roles [tag, low, high] [tag', low', high'] := by
  cases h <;> cases h' <;>
    simp [OffsetSide.blur, OffsetSide.roles, ByteRole.Allows, wordOfBytes_inj] <;> grind

theorem TypeByte.blur_eq_iff {byte byte' : UInt8} {type type' : DataType}
    (h : TypeByte byte type) (h' : TypeByte byte' type') :
    type.blur = type'.blur ↔ Alike (Operand.dataType type).roles [byte] [byte'] := by
  cases h <;> cases h' <;>
    simp [DataType.blur, Operand.roles, ByteRole.Allows] <;> grind

/-- Two operands of one kind blur to the same exactly when their bytes are shown alike. -/
theorem Spells.blur_eq_iff {kind : OperandKind} {bytes bytes' : Image} {operand other : Operand}
    (h : Spells kind bytes operand) (h' : Spells kind bytes' other) :
    operand.blur = other.blur ↔ Alike operand.roles bytes bytes' := by
  cases h with
  | literal hword | var hword | address hword | location hword | deref hword =>
    cases h'
    rename_i hword'
    rw [littleEndian_iff.mp hword, littleEndian_iff.mp hword']
    simp [Operand.blur, Operand.roles, Operand.size, ByteRole.Allows, wordOfBytes_inj]
  | popped =>
    cases h'
    simp [Operand.blur, Operand.roles, Operand.size]
  | @offset ltag llow lhigh op rtag rlow rhigh _ _ lhs rhs operator hldata hlhs hop hrdata hrhs =>
    cases h' with
    | @offset ltag' llow' lhigh' op' rtag' rlow' rhigh' _ _ _ _ _ hldata' hlhs' hop' hrdata' hrhs' =>
      rw [littleEndian_iff] at hldata hrdata hldata' hrdata'
      subst hldata hrdata hldata' hrdata'
      have hroles : (Operand.offset ⟨lhs, operator, rhs⟩).roles =
          lhs.roles ++ (.operator :: rhs.roles) := rfl
      have hsides : Alike (lhs.roles ++ (.operator :: rhs.roles))
          ([ltag, llow, lhigh] ++ (op :: [rtag, rlow, rhigh]))
          ([ltag', llow', lhigh'] ++ (op' :: [rtag', rlow', rhigh'])) ↔ _ :=
        alike_append (by simp) (by simp)
      rw [hroles]
      refine Iff.trans ?_ hsides.symm
      rw [alike_cons, ← hlhs.blur_eq_iff hlhs', ← hrhs.blur_eq_iff hrhs', ByteRole.Allows,
        ← OffsetOperator.ofByte_eq_iff, ← operatorByte_iff.mp hop, ← operatorByte_iff.mp hop']
      simp [Operand.blur]
  | dataType htype =>
    cases h' with
    | dataType htype' =>
      rw [← htype.blur_eq_iff htype']
      simp [Operand.blur]

theorem SpellsAll.blur_eq_iff {kinds : List OperandKind} {bytes bytes' : Image}
    {operands others : List Operand} (h : SpellsAll kinds bytes operands)
    (h' : SpellsAll kinds bytes' others) :
    operands.map Operand.blur = others.map Operand.blur ↔
      Alike (operands.flatMap Operand.roles) bytes bytes' := by
  induction h generalizing bytes' others with
  | nil =>
    cases h'
    simp
  | cons hfirst hothers ih =>
    cases h' with
    | cons hfirst' hothers' =>
      have hleft := hfirst.size_eq.trans hfirst.length_eq.symm
      have hright := hfirst.size_eq.trans hfirst'.length_eq.symm
      rw [List.flatMap_cons, alike_append (by simpa using hleft) (by simpa using hright),
        List.map_cons, List.map_cons, List.cons.injEq, hfirst.blur_eq_iff hfirst', ih hothers']

/-! ### Instructions and listings -/

/-- Two instructions at one address blur to the same exactly when their bytes are shown
    alike. -/
theorem Instruction.SpelledBy.blur_eq_iff {i j : Instruction} {bytes bytes' : Image}
    (h : i.SpelledBy bytes) (h' : j.SpelledBy bytes') (haddress : i.address = j.address) :
    i.blur = j.blur ↔ Alike i.roles bytes bytes' := by
  cases h with
  | mk hopcode hfields =>
    cases h' with
    | mk hopcode' hfields' =>
      rw [littleEndian_iff] at hopcode hopcode'
      subst hopcode hopcode' haddress
      rw [Instruction.roles, alike_cons, alike_cons, ByteRole.Allows, ByteRole.Allows]
      constructor
      · intro heq
        injection heq with _ hopcodes _ hoperands
        obtain ⟨rfl, rfl⟩ := wordOfBytes_inj.mp hopcodes
        exact ⟨rfl, rfl, (hfields.blur_eq_iff hfields').mp hoperands⟩
      · rintro ⟨hlow, hhigh, hrest⟩
        subst hlow hhigh
        simp only [Instruction.blur, (hfields.blur_eq_iff hfields').mpr hrest]

theorem Instruction.SpelledBy.opcode_eq_of_alike {i j : Instruction} {roles : List ByteRole}
    {bytes bytes' rest rest' : Image} (h : i.SpelledBy bytes) (h' : j.SpelledBy bytes')
    (halike : Alike (i.roles ++ roles) (bytes ++ rest) (bytes' ++ rest')) :
    i.opcode = j.opcode := by
  obtain ⟨low, high, fields, rfl, hopcode⟩ := h.exists_opcode
  obtain ⟨low', high', fields', rfl, hopcode'⟩ := h'.exists_opcode
  simp only [Instruction.roles, List.cons_append, alike_cons, ByteRole.Allows] at halike
  rw [hopcode, hopcode', halike.1, halike.2.1]

/-- Two listings that fill bytes from the same address on blur to the same exactly when
    their bytes are shown alike. -/
theorem Listing.Fills.blur_eq_iff {listing other : Listing} {position : Nat}
    {bytes bytes' : Image} (h : listing.Fills position bytes) (h' : other.Fills position bytes') :
    listing.map Instruction.blur = other.map Instruction.blur ↔
      Alike listing.roles bytes bytes' := by
  induction h generalizing other bytes' with
  | nil =>
    cases h' with
    | nil => exact ⟨fun _ => alike_nil, fun _ => rfl⟩
    | cons hspelled' _ =>
      obtain ⟨low, high, fields, rfl, -⟩ := hspelled'.exists_opcode
      simp [Alike]
  | @cons i listing bytes rest hspelled hrest ih =>
    generalize hposition : i.address.toNat = position at h'
    cases h' with
    | nil =>
      obtain ⟨low, high, fields, rfl, -⟩ := hspelled.exists_opcode
      simp [Alike]
    | @cons j other bytes' rest' hspelled' hrest' =>
      have haddress : i.address = j.address := UInt16.toNat_inj.mp hposition
      have hroles : Listing.roles (i :: listing) = i.roles ++ Listing.roles listing :=
        List.flatMap_cons
      rw [hroles]
      by_cases hopcode : i.opcode = j.opcode
      · have hlength : bytes.length = bytes'.length := by
          rw [hspelled.length_eq, hspelled'.length_eq, hopcode]
        rw [← hposition, ← hlength] at hrest'
        rw [alike_append (by simpa using hspelled.size_eq)
          (by simpa [← hlength] using hspelled.size_eq), List.map_cons, List.map_cons,
          List.cons.injEq, hspelled.blur_eq_iff hspelled' haddress, ih hrest']
      · -- Different opcode words are seen on both sides.
        constructor
        · intro heq
          injection heq with hfirst _
          exact absurd (congrArg Instruction.opcode hfirst) hopcode
        · intro halike
          exact absurd (hspelled.opcode_eq_of_alike hspelled' halike) hopcode

theorem Listing.Fills.length_roles {listing : Listing} {position : Nat} {bytes : Image}
    (h : listing.Fills position bytes) : listing.roles.length = bytes.length := by
  rw [← h.length_eq, Listing.roles, List.length_flatMap]
  simp

end Disassembly
