import Mathlib.Init

/-!
# Errors and their responses

`app/core/errors.py`. An exception that no handler catches is answered by the framework's plain
internal server error.
-/

namespace EventsApi

/-- The statuses of the `HTTPException`s the application raises. -/
inductive HttpStatus where
  | badRequest
  | unauthorized
  | forbidden
  | notFound
  | conflict
  | serviceUnavailable
  deriving DecidableEq

def HttpStatus.code : HttpStatus → Nat
  | .badRequest => 400
  | .unauthorized => 401
  | .forbidden => 403
  | .notFound => 404
  | .conflict => 409
  | .serviceUnavailable => 503

/-- `HTTPStatus(status_code).phrase`. -/
def reasonPhrase : HttpStatus → String
  | .badRequest => "Bad Request"
  | .unauthorized => "Unauthorized"
  | .forbidden => "Forbidden"
  | .notFound => "Not Found"
  | .conflict => "Conflict"
  | .serviceUnavailable => "Service Unavailable"

/-- What a request handler raises. -/
inductive Exn where
  | http (status : HttpStatus) (detail : String) (headers : List (String × String))
  | integrityError
  | staleDataError
  | valueError
  | invalidRequestError
  /-- The client was cut off: there is no response at all. -/
  | lost
  deriving DecidableEq

/-- The error envelope. -/
structure ErrorBody where
  statusCode : Nat
  message : String
  error : Option String
  deriving DecidableEq

inductive Response (α : Type) where
  | success (value : α)
  | error (body : ErrorBody) (headers : List (String × String))
  | internalServerError
  | none
  deriving DecidableEq

/-- A 401 carries no reason phrase. -/
def errorBody (status : HttpStatus) (detail : String) : ErrorBody where
  statusCode := status.code
  message := detail
  error := if status = .unauthorized then Option.none else some (reasonPhrase status)

def respond {α : Type} : Except Exn α → Response α
  | .ok value => .success value
  | .error (.http status detail headers) => .error (errorBody status detail) headers
  | .error .lost => .none
  | .error _ => .internalServerError

end EventsApi
