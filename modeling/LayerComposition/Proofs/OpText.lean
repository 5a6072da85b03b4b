import LayerComposition.Proofs.Notation

/-! # Op texts

Reading an op and writing it undo each other. A token is read at its first operator, and all that
follows belongs to the name; so an op is read from its text if its group ends there, and a token is
refused if it has no operator or no group in front of one.
-/

namespace LayerComposition

namespace Op

/-- The characters that end the group of an op. -/
def operators : List Char :=
  ['+', '-', '>']

/-- What has to hold of an op for its text to be read as that op. -/
structure Spelled (op : Op) : Prop where
  filled : op.group ≠ ""
  free : ∀ c ∈ operators, c ∉ op.group.toList
  cleared : op.kind = .clearGroup → op.name = ""
  disabled : op.kind = .disable → op.name ≠ ""

variable {op : Op} {token : String} {group name : List Char} {operator : Char}

theorem isOperator_iff {c : Char} : isOperator c = true ↔ c ∈ operators := by
  simp [isOperator, operators, or_assoc]

theorem forall_isOperator_eq_false_iff {cs : List Char} :
    (∀ c ∈ cs, isOperator c = false) ↔ ∀ c ∈ operators, c ∉ cs := by
  simp only [← Bool.not_eq_true, isOperator_iff]
  exact ⟨fun free c isOp mem => free c mem isOp, fun free c mem isOp => free c isOp mem⟩

-- The group is gone through character by character: left to itself, the bounded `∀` over
-- characters may be decided by trying every character there is.
instance (op : Op) : Decidable op.Spelled :=
  decidable_of_iff
    (op.group ≠ "" ∧ (op.group.toList.all fun c => !isOperator c) = true ∧
      (op.kind = .clearGroup → op.name = "") ∧ (op.kind = .disable → op.name ≠ ""))
    ⟨fun ⟨filled, free, cleared, disabled⟩ =>
        ⟨filled, forall_isOperator_eq_false_iff.1 (by simpa using free), cleared, disabled⟩,
      fun ⟨filled, free, cleared, disabled⟩ =>
        ⟨filled, by simpa using forall_isOperator_eq_false_iff.2 free, cleared, disabled⟩⟩

/-- A token either has no operator and is no op, or it is read at its first operator. -/
theorem read?_cases (token : String) :
    ((∀ c ∈ token.toList, isOperator c = false) ∧ read? token = none) ∨
      ∃ group operator name, token.toList = group ++ operator :: name ∧
        (∀ c ∈ group, isOperator c = false) ∧ isOperator operator = true ∧
        read? token = ofPieces? group (operator :: name) := by
  cases rest : token.toList.dropWhile fun c => !isOperator c with
  | nil =>
      refine .inl ⟨?_, by simp [read?, rest, ofPieces?]⟩
      simpa using List.dropWhile_eq_nil_iff.1 rest
  | cons operator name =>
      have whole := List.takeWhile_append_dropWhile (p := fun c => !isOperator c) (l := token.toList)
      have first := List.head?_dropWhile_not (fun c => !isOperator c) token.toList
      refine .inr ⟨_, operator, name, (rest ▸ whole).symm, ?_, ?_, by simp [read?, rest]⟩
      · intro c mem
        simpa using List.mem_takeWhile_imp mem
      · simpa [rest] using first

/-! ## What is read -/

theorem spelled_of_ofPieces? (free : ∀ c ∈ group, isOperator c = false)
    (found : ofPieces? group (operator :: name) = some op) : op.Spelled := by
  have free : ∀ c ∈ operators, c ∉ (String.ofList group).toList := by
    simpa using forall_isOperator_eq_false_iff.1 free
  rw [ofPieces?] at found
  split_ifs at found with empty _ _ unnamed
  all_goals
    have filled : String.ofList group ≠ "" := by simpa using empty
    cases found
  · exact ⟨filled, free, by simp [kind], by simp [kind]⟩
  · exact ⟨filled, free, by simp [kind], by simp [kind]⟩
  · exact ⟨filled, free, fun _ => rfl, by simp [kind]⟩
  · exact ⟨filled, free, by simp [kind], fun _ => by simpa [Op.name] using unnamed⟩

theorem spelled_of_read? (found : read? token = some op) : op.Spelled := by
  rcases read?_cases token with ⟨_, refused⟩ | ⟨group, operator, name, _, free, _, pieces⟩
  · rw [refused] at found
    contradiction
  · rw [pieces] at found
    exact spelled_of_ofPieces? free found

theorem Spelled.read?_text (spelled : op.Spelled) : read? op.text = some op :=
  Op.read?_text spelled.filled (forall_isOperator_eq_false_iff.2 spelled.free) spelled.cleared
    spelled.disabled

theorem read?_eq_some_iff : read? token = some op ↔ op.text = token ∧ op.Spelled := by
  constructor
  · intro found
    exact ⟨text_of_read? found, spelled_of_read? found⟩
  · rintro ⟨rfl, spelled⟩
    exact spelled.read?_text

/-! ## What is refused -/

theorem ofPieces?_eq_none_iff : ofPieces? group (operator :: name) = none ↔ group = [] := by
  simp only [ofPieces?]
  repeat' split
  all_goals simp_all

theorem read?_eq_none_iff :
    read? token = none ↔
      (∀ c ∈ operators, c ∉ token.toList) ∨ ∃ c ∈ operators, token.toList.head? = some c := by
  rcases read?_cases token with ⟨free, refused⟩ | ⟨group, operator, name, whole, free, isOp, pieces⟩
  · exact iff_of_true refused (.inl (forall_isOperator_eq_false_iff.1 free))
  · rw [pieces, ofPieces?_eq_none_iff, whole, ← forall_isOperator_eq_false_iff]
    cases group with
    | nil => simpa using .inr (isOperator_iff.1 isOp)
    | cons first others =>
        refine iff_of_false (by simp) ?_
        rintro (plain | ⟨c, c_mem, begins⟩)
        · simp [plain operator (by simp)] at isOp
        · cases begins
          have leads := isOperator_iff.2 c_mem
          simp [free first List.mem_cons_self] at leads

/-- A token that is read as an op is its text, and the op is spelled out; every op that is spelled
    out is read from its text; and a token is refused exactly if it holds no operator or begins
    with one. -/
theorem read?_inverts_text :
    (∀ token op, read? token = some op → op.text = token ∧ op.Spelled) ∧
      (∀ op : Op, op.Spelled → read? op.text = some op) ∧
      ∀ token, read? token = none ↔
        (∀ c ∈ operators, c ∉ token.toList) ∨ ∃ c ∈ operators, token.toList.head? = some c :=
  ⟨fun _ _ => read?_eq_some_iff.1, fun _ => Spelled.read?_text, fun _ => read?_eq_none_iff⟩

/-- Later operators belong to the name, which only a layer that is switched off has to have. -/
theorem read?_inverts_text_hair :
    (disable "Hair" "Long+Red").text = "Hair-Long+Red" ∧
      read? "Hair>-" = some (exclusive "Hair" "-") ∧ read? "Hair>" = some (exclusive "Hair" "") ∧
      read? "Hair-" = some (clear "Hair") ∧ read? ">Hair" = none := by
  obtain ⟨told, reads, refuses⟩ := read?_inverts_text
  refine ⟨(told _ _ (by decide)).1, reads (exclusive "Hair" "-") (by decide),
    reads (exclusive "Hair" "") (by decide), reads (clear "Hair") (by decide), ?_⟩
  exact (refuses _).2 (.inr ⟨'>', by decide, rfl⟩)

end Op

end LayerComposition
