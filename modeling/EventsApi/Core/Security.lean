import EventsApi.Core.Errors
import EventsApi.Core.Time

/-!
# Passwords, tokens and durations

`app/core/security.py` and the settings of `app/core/config.py` it reads. The hash functions and the
JSON web tokens are those of third-party packages: a model is given them with what is documented of
them. bcrypt 5.0.0 raises `ValueError` for a password of more than 72 bytes.
-/

namespace EventsApi

open ClockZone

inductive DurationUnit where
  | d
  | h
  | m
  | s
  deriving DecidableEq

def DurationUnit.seconds : DurationUnit → Nat
  | .d => 86400
  | .h => 3600
  | .m => 60
  | .s => 1

/-- A setting that matches `^\d+[dhms]$`. A `timedelta` has less than a billion days. -/
structure Duration where
  amount : Nat
  unit : DurationUnit
  within : amount * unit.seconds < 86400 * 1000000000
  deriving DecidableEq

/-- In microseconds. -/
def parseDuration (value : Duration) : Int := value.amount * value.unit.seconds * 1000000

/-- Every duration is a `timedelta`. -/
theorem parseDuration_mem (value : Duration) :
    0 ≤ parseDuration value ∧ parseDuration value < 86400 * 1000000000 * 1000000 := by
  have hwithin : (value.amount * value.unit.seconds : Int) < 86400 * 1000000000 := by
    exact_mod_cast value.within
  constructor
  · exact Int.mul_nonneg (Int.mul_nonneg (Int.natCast_nonneg _) (Int.natCast_nonneg _)) (by decide)
  · exact Int.mul_lt_mul_of_pos_right hwithin (by decide)

structure Settings where
  jwtExpiresIn : Duration := ⟨15, .m, by decide⟩
  refreshTokenExpiresIn : Duration := ⟨180, .d, by decide⟩
  emailConfirmationUrl : String := "http://localhost:3000/confirm-email"
  emailConfirmationExpiresIn : Duration := ⟨24, .h, by decide⟩
  emailResendCooldown : Duration := ⟨60, .s, by decide⟩
  passwordResetUrl : String := "http://localhost:3000/reset-password"
  passwordResetExpiresIn : Duration := ⟨1, .h, by decide⟩
  passwordResetCooldown : Duration := ⟨60, .s, by decide⟩
  emailOutboxPollInterval : Duration := ⟨5, .s, by decide⟩
  reportToEmail : Option String := none

def Settings.default : Settings := {}

/-- The claims this service issues and expects. -/
structure TokenClaims where
  sub : Nat
  email : String
  deriving DecidableEq

/-- What is put into an access token: the claims, `iat`, `exp` and `jti`. -/
structure AccessTokenPayload where
  claims : TokenClaims
  iat : Int
  exp : Int
  jti : String
  deriving DecidableEq

def bcryptMaxBytes : Nat := 72

/-- A hash function without collisions, bcrypt on passwords it accepts, and signed tokens, which
decode to their claims until they expire. -/
structure Crypto where
  sha256 : String → String
  sha256_injective : Function.Injective sha256
  hashpw : (password salt : String) → String
  checkpw : (password passwordHash : String) → Bool
  checkpw_hashpw : ∀ password stored salt, password.utf8ByteSize ≤ bcryptMaxBytes →
    stored.utf8ByteSize ≤ bcryptMaxBytes →
    (checkpw password (hashpw stored salt) = true ↔ password = stored)
  encode : AccessTokenPayload → String
  decode : (token : String) → (now : Int) → Option TokenClaims

/-- The assumptions are consistent. -/
def Crypto.plain : Crypto where
  sha256 := id
  sha256_injective := Function.injective_id
  hashpw password _ := password
  checkpw password passwordHash := password == passwordHash
  checkpw_hashpw _ _ _ _ _ := beq_iff_eq
  encode payload := payload.jti
  decode _ _ := none

variable (crypto : Crypto)

def hashPassword (password salt : String) : Except Exn String :=
  if password.utf8ByteSize ≤ bcryptMaxBytes then .ok (crypto.hashpw password salt)
  else .error .valueError

def verifyPassword (password passwordHash : String) : Except Exn Bool :=
  if password.utf8ByteSize ≤ bcryptMaxBytes then .ok (crypto.checkpw password passwordHash)
  else .error .valueError

def hashRefreshToken (token : String) : String := crypto.sha256 token

/-- What the handlers read besides the request and the database: the settings, the hash functions,
and for the messages they send the builder of their links and the Lithuanian time zone with the
abbreviations of its offsets. -/
structure Context where
  settings : Settings
  crypto : Crypto
  tokenUrl : (baseUrl token : String) → String
  zone : Zone
  zoneName : (instant : Int) → String

/-- A reading of the clock, which is in UTC. -/
def Context.formatSystemTimestamp (context : Context) (instant : Int) : String :=
  EventsApi.formatSystemTimestamp context.zone context.zoneName ⟨instant, some 0⟩

end EventsApi
