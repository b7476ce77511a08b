import Linksurf.Execution
import Linksurf.Loads
import Linksurf.BalancedPass
import Linksurf.Exclusion
import Linksurf.Politeness
import Linksurf.Coordinators
import Linksurf.Promotion
import Linksurf.StaleWrites
import Linksurf.Exclusivity
import Linksurf.Domains
import Linksurf.PageKeys
import Linksurf.CrawlHistory
import Linksurf.Landing
import Linksurf.Redirects
import Linksurf.Rediscovery
import Linksurf.Lookups
import Linksurf.Shutdowns
import Linksurf.Escalation
import Linksurf.Deduplication
import Linksurf.Reports
import Linksurf.Enqueueing
import Linksurf.Drains
import Linksurf.Snapshot
import Linksurf.Ancestry
import Linksurf.Browser
import Linksurf.Updates
import Linksurf.Gaps
import Linksurf.Prioritizers
import Linksurf.Metrics
import Linksurf.FrontierOrder
import Linksurf.Looper
import Linksurf.Extractors
import Linksurf.Publication
import Linksurf.Sharing
