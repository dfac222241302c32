import RemoBroker.Lib.Machine
import RemoBroker.Audit
import RemoBroker.Registry
import RemoBroker.Allowlist
import RemoBroker.Lifecycle.Agreement
import RemoBroker.Reload.Current
import RemoBroker.AdminSocket
import RemoBroker.Exposure
import RemoBroker.AuditTrail
import RemoBroker.Secrecy
import RemoBroker.Isolation
import RemoBroker.Shutdown.Clean
import RemoBroker.Shutdown.Sigterm
import RemoBroker.AuditLog.Torn
import RemoBroker.AuditLog.Accounting
import RemoBroker.Reads
import RemoBroker.Lifetime
import RemoBroker.Framing.Exact
import RemoBroker.Traffic
import RemoBroker.ServeLoop
import RemoBroker.Cache.History
import RemoBroker.Cache.Projects
import RemoBroker.Naming
import RemoBroker.Confinement
import RemoBroker.SocketFiles
import RemoBroker.Shutdown.ProjectStop
import RemoBroker.Bootstrap.Token
import RemoBroker.Wire.Conversation
import RemoBroker.AuditLog.Events
import RemoBroker.ControlPlane
import RemoBroker.Shutdown.Completion
import RemoBroker.Startup
import RemoBroker.Provenance
import RemoBroker.AuditLog.Accesses
import RemoBroker.Availability
import RemoBroker.Wire.Session
import RemoBroker.AuditLog.Auditor
import RemoBroker.Cache.Simulation
import RemoBroker.Staleness
