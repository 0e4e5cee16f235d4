import RelStore.Value

/-!
# Settings of the server

The server listens at a numbered endpoint of an address and waits for a line no longer than a given
time. Settings that cannot be are refused.
-/

namespace RelStore.Http

/-- The settings of a server. -/
structure Settings where
  /-- The address to listen on. -/
  host : Text := "0.0.0.0"
  /-- The number of the endpoint to listen at. -/
  endpoint : Value := .int 8080
  /-- How many seconds to wait for a line, a number. -/
  readTimeout : Value := .float (.ofInt 5)
  deriving DecidableEq

/-- A number as it is written, a float with its fraction. -/
def numberText : Value → Text
  | .float x => x.text
  | v => v.render

/-- Why a server cannot have some settings. -/
inductive SettingsError where
  /-- There is no endpoint of this number. -/
  | endpoint (v : Value)
  /-- The server has to wait for some time. -/
  | readTimeout (v : Value)
  deriving DecidableEq

/-- The wording of a fault in the settings of a server. -/
def SettingsError.message : SettingsError → Text
  | .endpoint v => "port must be between 0 and 65535, got " ++ numberText v
  | .readTimeout v => "read_timeout must be > 0, got " ++ numberText v

/-- Checks settings. Endpoints are numbered from 0 to 65535, and a time is above zero if it is a
number at all. -/
def Settings.check (settings : Settings) : Except SettingsError Settings :=
  let between (p : Point) : Bool :=
    p.compare (.ofInt 0) != .lt && p.compare (.ofInt 65535) != .gt
  if !settings.endpoint.point?.any between then .error (.endpoint settings.endpoint)
  else if settings.readTimeout.point?.any fun p => p.compare (.ofInt 0) != .gt then
    .error (.readTimeout settings.readTimeout)
  else .ok settings

end RelStore.Http
