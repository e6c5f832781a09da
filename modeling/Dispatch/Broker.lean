import Dispatch.Json.Reader
import Dispatch.Schema.Checking
import Dispatch.Text.Utf8
import Dispatch.Value.Members

/-!
# Message brokers

Applications and staging jobs exchange samples through a message broker.  `Broker` is
what jobs need of one: a table of settings for connecting to it.

The settings of a `RmqBroker` are one table; the application is shown only the part that
it needs to connect, in a fixed order.
-/

namespace Dispatch

/-- What jobs need of a broker. -/
structure Broker where
  /-- The settings for connecting, for an application or with all that the services need. -/
  descriptor : Bool → Except String (Dict Value)

/-- The settings that an application is shown. -/
def Broker.shown (broker : Broker) : Except Failure (Dict Value) :=
  (broker.descriptor true).mapError .brokerReported

/-- A broker that is known by its settings. -/
structure RmqBroker where
  settings : Value

namespace RmqBroker

/-- The settings that there are, and which of them are required. -/
def members : List (String × Bool × Schema) :=
  [Schema.required "service-host" (.text 1),
    Schema.required "service-port" (.integer (some 1) (some 65535)),
    Schema.required "rabbitmq-user" .anyText,
    Schema.required "rabbitmq-password" .anyText,
    Schema.required "rabbitmq-vhost" .anyText,
    Schema.optional "rabbitmq-cert" .anyText,
    Schema.required "rabbitmq-outbound-queue" .anyText,
    Schema.required "rabbitmq-exchange" .anyText,
    Schema.required "rabbitmq-routing-key" .anyText,
    Schema.optional "rabbitmq-inbound-queue" .anyText,
    Schema.optional "rabbitmq-name" .anyText,
    Schema.optional "rabbitmq-erlang-cookie" .anyText]

/-- What tables of settings hold. -/
def schema : Schema :=
  .table members false

/-- The names of all settings. -/
def allKeys : List String :=
  members.map Prod.fst

/-- The names of the settings that an application is shown. -/
def libraryKeys : List String :=
  ["service-host", "service-port", "rabbitmq-user", "rabbitmq-password", "rabbitmq-vhost",
    "rabbitmq-cert", "rabbitmq-outbound-queue", "rabbitmq-exchange", "rabbitmq-routing-key"]

/-- The broker with the settings in a value. -/
def ofValue (value : Value) : Except Failure RmqBroker := do
  return ⟨← schema.checkValue value "rabbitmq config" .configuration⟩

/-- The broker with the settings in the text of a file. -/
def ofText (path text : String) : Except Failure RmqBroker :=
  match Json.read? text with
  | none => .error (.brokerNotJson path)
  | some value => ofValue value

/-- The broker with the settings in a file. -/
def ofFile (tree : FileTree) (workingDirectory : List String) (path : String) :
    Except Failure RmqBroker := do
  let bytes ← (tree.readText workingDirectory path).mapError .file
  ofText path (Utf8.decode bytes)

/-- The settings that are there among some names, in the order of the names. -/
def select (broker : RmqBroker) (names : List String) : Dict Value :=
  names.filterMap fun name =>
    match broker.settings.member name with
    | .missing => none
    | value => some (name, value)

/-- The settings for connecting, for an application or with all that the services need. -/
def descriptor (broker : RmqBroker) (forLibrary : Bool) : Dict Value :=
  broker.select (if forLibrary then libraryKeys else allKeys)

/-- The host that the broker runs on. -/
def host (broker : RmqBroker) : Value :=
  broker.settings.member "service-host"

/-- The port that the broker listens to. -/
def port (broker : RmqBroker) : Value :=
  broker.settings.member "service-port"

/-- The broker as jobs see it; its descriptors are always there. -/
def toBroker (broker : RmqBroker) : Broker where
  descriptor forLibrary := .ok (broker.descriptor forLibrary)

end RmqBroker

end Dispatch
