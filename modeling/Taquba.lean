import Taquba.Queue.Dedup
import Taquba.Lifecycle.Attempts
import Taquba.Cursor.Waits
import Taquba.Bounds.Scans
import Taquba.Bounds.Restore
import Taquba.Lease.Ownership
import Taquba.Lease.Cancel
import Taquba.Lease.Renewals
import Taquba.Kv.Runs
import Taquba.Recovery.Runs
import Taquba.Completion.Runs
import Taquba.Payload.Runs
import Taquba.Retention.Done
import Taquba.Expiry.Runs
import Taquba.Scan.Jobs
import Taquba.Inbox.Order.Runs
import Taquba.Inbox.Touch
import Taquba.Inbox.Paths
import Taquba.Inbox.Prefetch
import Taquba.Clock.RunAt
import Taquba.Clock.Backoff
import Taquba.Cron.Firing
import Taquba.Webhooks.Delivery
import Taquba.Workflow.Ranges
import Taquba.Reconcile.Runs
