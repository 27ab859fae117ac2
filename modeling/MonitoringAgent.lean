import MonitoringAgent.Gather.Bounds
import MonitoringAgent.Gather.Cancel
import MonitoringAgent.Mysql.Alerts
import MonitoringAgent.Registry.Identity
import MonitoringAgent.Routine.Handshake
import MonitoringAgent.Pool.Safety
import MonitoringAgent.Pool.List
import MonitoringAgent.Pool.Delivery
import MonitoringAgent.Gather.Recycle
import MonitoringAgent.Lib.Scan
import MonitoringAgent.Config.Sparser
import MonitoringAgent.Config.Grammar
import MonitoringAgent.Lib.Json
import MonitoringAgent.Lib.Format
import MonitoringAgent.Mysql.Sections
import MonitoringAgent.Mysql.Columns
import MonitoringAgent.Mysql.WellFormed
import MonitoringAgent.Os.Sections
import MonitoringAgent.Os.WellFormed
import MonitoringAgent.Message.Payload
import MonitoringAgent.Message.Escaping
import MonitoringAgent.Config.Reader
import MonitoringAgent.Config.Arrays
import MonitoringAgent.Config.Comments
import MonitoringAgent.Lib.Directive
import MonitoringAgent.Mysql.Load
import MonitoringAgent.Registry.Stores
import MonitoringAgent.Pool.Backoff
import MonitoringAgent.Pool.Growth
import MonitoringAgent.Gather.Expiry
import MonitoringAgent.Os.Network
import MonitoringAgent.Os.Disk
import MonitoringAgent.Os.Space
import MonitoringAgent.Os.Mounts
import MonitoringAgent.Lib.Fairness
import MonitoringAgent.Pool.Order
import MonitoringAgent.Pool.Progress
import MonitoringAgent.Pool.Arrival
import MonitoringAgent.Pool.Priority
import MonitoringAgent.Pool.Ledger
import MonitoringAgent.Pool.Accounts
import MonitoringAgent.Pool.Retire
import MonitoringAgent.Pool.Return
import MonitoringAgent.Pool.Serial
import MonitoringAgent.Sender.Progress
import MonitoringAgent.Lib.Cube
import MonitoringAgent.Plugin.Identifier
import MonitoringAgent.Lib.JsonReader
import MonitoringAgent.Message.Report
import MonitoringAgent.Message.Inbox
import MonitoringAgent.Message.Arrival
import MonitoringAgent.Metadata
import MonitoringAgent.Mysql.Ibuf
