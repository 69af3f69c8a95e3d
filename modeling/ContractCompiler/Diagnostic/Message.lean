import ContractCompiler.Diagnostic.Basic

/-!
# Wording of diagnostics

Each cause has a template in each language. The holes of a template are numbered, and arguments are
put in one after the other: first every hole 0 of the text, then every hole 1 of what results, and
so on. A hole without an argument stays as it is.

- `Cause.template`: the template of a cause;
- `Diagnostic.message`: the template with its holes filled.
-/

namespace ContractCompiler

/-- The mark of a numbered hole in a template. -/
def hole (i : Nat) : String := "\x7b" ++ toString i ++ "\x7d"

/-- Puts a text in place of every occurrence of a pattern, read from left to right. -/
def replaceAll (pattern replacement : List Char) : List Char → List Char
  | [] => []
  | c :: cs =>
    if pattern.isPrefixOf (c :: cs) then
      replacement ++ replaceAll pattern replacement (cs.drop (pattern.length - 1))
    else c :: replaceAll pattern replacement cs
termination_by cs => cs.length
decreasing_by
  all_goals simp only [List.length_drop, List.length_cons]; omega

/-- Fills the holes from the given number on with the arguments in order. -/
def fillFrom (i : Nat) (text : List Char) : List String → List Char
  | [] => text
  | a :: as => fillFrom (i + 1) (replaceAll (hole i).toList a.toList text) as

/-- Fills the holes of a template. -/
def fill (template : String) (args : List String) : String :=
  String.ofList (fillFrom 0 template.toList args)

/-- The English template of a cause. -/
def Cause.english : Cause → String
  | .malformed => s!"malformed HIR document: {hole 0}"
  | .unknownName => s!"unknown name '{hole 0}'"
  | .unknownType => s!"unknown type '{hole 0}'"
  | .typeMismatch => s!"type mismatch: expected '{hole 0}', found '{hole 1}'"
  | .duplicateName => s!"duplicate definition of '{hole 0}'"
  | .argCountMismatch => s!"call to '{hole 0}' expects {hole 1} argument(s), found {hole 2}"
  | .notAPlace => s!"argument for 'mut' parameter '{hole 0}' must be a local binding"
  | .useAfterMove => s!"use of moved binding '{hole 0}'"
  | .moveWhileBorrowed => s!"cannot move '{hole 0}' while it is {hole 1}"
  | .borrowConflict => s!"cannot {hole 1} '{hole 0}' while it is {hole 2}"
  | .mutBorrowOfImmutable => s!"cannot borrow immutable binding '{hole 0}' exclusively"
  | .assignToImmutable => s!"cannot assign twice to immutable binding '{hole 0}'"
  | .moveOutOfBorrowed => s!"cannot move out of '{hole 0}', which is a borrowed parameter"
  | .attrMalformed => s!"malformed annotation '{hole 0}': {hole 1}"
  | .wildcardFallback =>
    s!"function '{hole 0}': state key in namespace '{hole 1}' is not statically resolvable; access coarsened to '{hole 2}' (consider an explicit #[reads]/#[writes] annotation)"
  | .dynamicKeyRejected =>
    s!"function '{hole 0}': state key in namespace '{hole 1}' is not statically resolvable and wildcard coarsening is disabled"
  | .underDeclared =>
    s!"function '{hole 0}' {hole 1} '{hole 2}' which is not covered by its declared #[{hole 1}] set"
  | .overDeclared => s!"function '{hole 0}' declares #[{hole 1}] '{hole 2}' but never touches it"
  | .tooManyLocals =>
    s!"internal limit: function '{hole 0}' needs {hole 1} locals, target allows {hole 2}"
  | .valueTooLarge =>
    s!"internal limit: function '{hole 0}': {hole 1} of size {hole 2} exceeds target limit {hole 3}"
  | .unsupported => s!"internal: function '{hole 0}': cannot lower {hole 1}"
  | .fnExcluded => s!"function '{hole 0}' excluded from output: {hole 1}"
  | .ssaVerifyFailed => s!"internal: SSA verification failed in '{hole 0}': {hole 1}"
  | .tooManyErrors => "too many errors emitted; stopping"

/-- The Korean template of a cause. -/
def Cause.korean : Cause → String
  | .malformed => s!"HIR 문서 형식이 올바르지 않습니다: {hole 0}"
  | .unknownName => s!"알 수 없는 이름 '{hole 0}'"
  | .unknownType => s!"알 수 없는 타입 '{hole 0}'"
  | .typeMismatch => s!"타입 불일치: '{hole 0}'이(가) 필요하지만 '{hole 1}'입니다"
  | .duplicateName => s!"'{hole 0}'이(가) 중복 정의되었습니다"
  | .argCountMismatch => s!"'{hole 0}' 호출은 인자 {hole 1}개가 필요하지만 {hole 2}개가 주어졌습니다"
  | .notAPlace => s!"'mut' 매개변수 '{hole 0}'의 인자는 지역 바인딩이어야 합니다"
  | .useAfterMove => s!"이미 이동된 바인딩 '{hole 0}'을(를) 사용했습니다"
  | .moveWhileBorrowed => s!"'{hole 0}'이(가) {hole 1} 상태이므로 이동할 수 없습니다"
  | .borrowConflict => s!"'{hole 0}'이(가) {hole 2} 상태이므로 {hole 1}할 수 없습니다"
  | .mutBorrowOfImmutable => s!"불변 바인딩 '{hole 0}'을(를) 배타적으로 빌릴 수 없습니다"
  | .assignToImmutable => s!"불변 바인딩 '{hole 0}'에 다시 대입할 수 없습니다"
  | .moveOutOfBorrowed => s!"빌린 매개변수 '{hole 0}'에서 값을 이동할 수 없습니다"
  | .attrMalformed => s!"어노테이션 '{hole 0}' 형식 오류: {hole 1}"
  | .wildcardFallback =>
    s!"함수 '{hole 0}': 네임스페이스 '{hole 1}'의 상태 키를 정적으로 해석할 수 없어 '{hole 2}'(으)로 넓혔습니다 (#[reads]/#[writes] 명시를 고려하세요)"
  | .dynamicKeyRejected =>
    s!"함수 '{hole 0}': 네임스페이스 '{hole 1}'의 상태 키를 정적으로 해석할 수 없고 와일드카드 확장이 비활성화되어 있습니다"
  | .underDeclared => s!"함수 '{hole 0}'이(가) 선언된 #[{hole 1}] 집합에 없는 '{hole 2}'에 접근합니다({hole 1})"
  | .overDeclared => s!"함수 '{hole 0}'이(가) #[{hole 1}] '{hole 2}'을(를) 선언했지만 실제로 접근하지 않습니다"
  | .tooManyLocals => s!"내부 한계: 함수 '{hole 0}'에 지역 슬롯 {hole 1}개가 필요하지만 타깃은 {hole 2}개까지 허용합니다"
  | .valueTooLarge => s!"내부 한계: 함수 '{hole 0}': {hole 1} 크기 {hole 2}이(가) 타깃 한계 {hole 3}을(를) 넘습니다"
  | .unsupported => s!"내부 오류: 함수 '{hole 0}': {hole 1}을(를) 낮출 수 없습니다"
  | .fnExcluded => s!"함수 '{hole 0}'이(가) 출력에서 제외되었습니다: {hole 1}"
  | .ssaVerifyFailed => s!"내부 오류: '{hole 0}'의 SSA 검증 실패: {hole 1}"
  | .tooManyErrors => "오류가 너무 많아 중단합니다"

/-- The template of a cause in a language. -/
def Cause.template (c : Cause) : Language → String
  | .english => c.english
  | .korean => c.korean

/-- The message of a finding. -/
def Diagnostic.message (d : Diagnostic) (lang : Language) : String :=
  fill (d.cause.template lang) d.args

end ContractCompiler
